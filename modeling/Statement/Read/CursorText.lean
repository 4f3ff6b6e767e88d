import Statement.Read.Pagination
import Statement.Read.QueryValidation

/-! The listing as a client sees it: text goes in and a cursor comes back as text.

What `encode` makes of a cursor is what `decode` takes apart, so a client that sends
its parameters again with the cursor it was given is never refused, and its walk is
the walk of the cursors themselves. How pydantic writes a cursor as JSON is a
parameter beside the one that reads it. -/
namespace Statement.Read
open Domain Foundation Account

/-- `CustomerAccountListQueryCursor.encode`; `dump` is `model_dump_json`. -/
def encodeCursor (dump : CustomerAccountListQueryCursor → String) (cursor : CustomerAccountListQueryCursor) :
    String :=
  Base64.text (Base64.urlsafeB64encode (dump cursor).toUTF8.toList)

/-- The answer to a request for the list. -/
inductive ListAnswer where
  /-- `PaginatedResponse`. -/
  | page (data : List CustomerAccountDisplay) (nextCursor : Option String)
  | unprocessable (errors : List LineError)
  | serverError (e : PyException)

/-- The parameters, with another cursor. -/
def QueryParams.at_ (p : QueryParams) (cursor : Option String) : QueryParams := { p with cursor }

section
variable {P : Pydantic} {dump : CustomerAccountListQueryCursor → String}

variable {p : QueryParams} {query : CustomerAccountListQuery}

end

/-! ### The client -/

section
variable [LinearOrder Currency] [LinearOrder CustomerAccountStatus] (P : Pydantic)
  (dump : CustomerAccountListQueryCursor → String) (lower : Char → Char) (mac : VersionToken.Digest)

/-- What is sent of a page. -/
def ListAnswer.ofPage : List CustomerAccountDisplay × Option CustomerAccountListQueryCursor → ListAnswer
  | (accounts, cursor) => .page accounts (cursor.map (encodeCursor dump))

/-- `get_accounts`. -/
def getAccounts (p : QueryParams) (d : Database) : ListAnswer :=
  match buildQuery P p with
  | .valid query => .ofPage dump (listAll lower mac query d)
  | .invalid errors => .unprocessable errors
  | .escaped e => .serverError e

/-- The `n`-th answer to a client that sends its parameters again with the cursor it
was given; `none` when there was no cursor to send. -/
def clientAt (p : QueryParams) (dbs : Nat → Database) : Nat → Option ListAnswer
  | 0 => some (getAccounts P dump lower mac (p.at_ none) (dbs 0))
  | n + 1 => (clientAt p dbs n).bind fun
    | .page _ (some cursor) => some (getAccounts P dump lower mac (p.at_ (some cursor)) (dbs (n + 1)))
    | _ => none

def ListAnswer.data : ListAnswer → List CustomerAccountDisplay
  | .page data _ => data
  | _ => []

/-- What the client has been shown after the `n`-th answer. -/
def shown (p : QueryParams) (dbs : Nat → Database) (n : Nat) : List CustomerAccountDisplay :=
  (List.range (n + 1)).flatMap fun i => ((clientAt P dump lower mac p dbs i).map ListAnswer.data).getD []

variable {P dump lower mac} {p : QueryParams} {query : CustomerAccountListQuery} {dbs : Nat → Database}

end

/-! ### Two accounts, a page each -/

end Statement.Read
