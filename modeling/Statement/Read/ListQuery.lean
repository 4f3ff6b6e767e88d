import Statement.Account.VersionToken
import Statement.Domain.Database
import Statement.Foundation.Lexicographic
import Statement.Read.NameFilter

/-! One page of the account list: `CustomerAccountReadRepositoryImpl.list_all`.

The `ORDER BY` and the cursor condition are built by one loop over the sort
requests. How the two text columns are collated is a parameter, and the same for
both. The cursor is the one the client sends back: the base64 and the JSON around
it are left out. -/
namespace Statement.Read
open Domain Foundation Account

inductive SortField where
  | currency | status | createdAt
  deriving DecidableEq, Repr

inductive SortDirection where
  | asc | desc
  deriving DecidableEq, Repr

structure SortRequest where
  field : SortField
  dir : SortDirection
  deriving DecidableEq, Repr

structure CustomerAccountListQueryCursor where
  currency : Option Currency
  status : Option CustomerAccountStatus
  createdAt : Option Timestamp
  id : UUID
  deriving DecidableEq

/-- A query that has passed its validators. -/
structure CustomerAccountListQuery where
  sort : List SortRequest := [⟨.createdAt, .desc⟩]
  cursor : Option CustomerAccountListQueryCursor := none
  count : Option Nat := none
  name : Option String := none
  currency : Option String := none
  status : Option CustomerAccountStatus := none
  createdAtFrom : Option Timestamp := none
  createdAtTo : Option Timestamp := none
  countRange : ∀ n ∈ count, 1 ≤ n ∧ n ≤ 100
  createdAtRange : ∀ i ∈ createdAtFrom, ∀ j ∈ createdAtTo, i ≤ j

structure CustomerAccountDisplay where
  id : UUID
  customerId : UUID
  currency : Currency
  name : Option String
  status : CustomerAccountStatus
  createdAt : Timestamp
  updatedAt : Timestamp
  updatedBy : Option UUID
  version : String
  deriving DecidableEq

/-! ### Columns -/

inductive Column where
  | currency | status | createdAt | id
  deriving DecidableEq, Repr

abbrev ColumnValue := Currency ⊕ₗ CustomerAccountStatus ⊕ₗ Timestamp ⊕ₗ UUID

namespace ColumnValue

def currency (c : Currency) : ColumnValue := toLex (.inl c)

def status (s : CustomerAccountStatus) : ColumnValue := toLex (.inr (toLex (.inl s)))

def createdAt (t : Timestamp) : ColumnValue := toLex (.inr (toLex (.inr (toLex (.inl t)))))

def id (u : UUID) : ColumnValue := toLex (.inr (toLex (.inr (toLex (.inr u)))))

end ColumnValue

def Column.get (row : CustomerAccount) : Column → ColumnValue
  | .currency => ColumnValue.currency row.currency
  | .status => ColumnValue.status row.status
  | .createdAt => ColumnValue.createdAt row.createdAt
  | .id => ColumnValue.id row.id

/-- `order_columns`. -/
def SortField.column : SortField → Column
  | .currency => .currency
  | .status => .status
  | .createdAt => .createdAt

/-- `cursor_values_by_field`. -/
def CustomerAccountListQueryCursor.value (c : CustomerAccountListQueryCursor) :
    SortField → Option ColumnValue
  | .currency => c.currency.map ColumnValue.currency
  | .status => c.status.map ColumnValue.status
  | .createdAt => c.createdAt.map ColumnValue.createdAt

/-- The text a currency is stored as. -/
def currencyText : Currency → String
  | .usd => "USD"
  | .eur => "EUR"
  | .gbp => "GBP"
  | .uah => "UAH"
  | .jpy => "JPY"

/-! ### The statement -/

/-- What the loop over the sort requests accumulates. -/
structure CursorScan where
  orderClauses : List (Column × SortDirection)
  sortFields : List SortField
  cursorAccepted : Bool
  cursorOrdering : List (Column × SortDirection)
  cursorValues : List ColumnValue

namespace CursorScan

def empty : CursorScan := ⟨[], [], true, [], []⟩

def request (cursor : Option CustomerAccountListQueryCursor) (s : CursorScan) (r : SortRequest) :
    CursorScan :=
  let s := { s with
    sortFields := s.sortFields ++ [r.field], orderClauses := s.orderClauses ++ [(r.field.column, r.dir)] }
  match cursor.bind (·.value r.field) with
  | none => { s with cursorAccepted := false }
  | some value => { s with
      cursorOrdering := s.cursorOrdering ++ [(r.field.column, r.dir)]
      cursorValues := s.cursorValues ++ [value] }

/-- The id, which breaks all ties. -/
def finish (cursor : Option CustomerAccountListQueryCursor) (s : CursorScan) : CursorScan :=
  let s := { s with orderClauses := s.orderClauses ++ [(Column.id, SortDirection.desc)] }
  match cursor with
  | none => { s with cursorAccepted := false }
  | some c =>
    if s.cursorAccepted then
      { s with
        cursorOrdering := s.cursorOrdering ++ [(Column.id, SortDirection.desc)]
        cursorValues := s.cursorValues ++ [ColumnValue.id c.id] }
    else s

def ofQuery (query : CustomerAccountListQuery) : CursorScan :=
  (query.sort.foldl (request query.cursor) empty).finish query.cursor

end CursorScan

section
variable [LinearOrder Currency] [LinearOrder CustomerAccountStatus]

/-- `build_cursor_condition`, on a row. The two lists have the same length. -/
def buildCursorCondition (ordering : List (Column × SortDirection)) (cursorValues : List ColumnValue)
    (row : CustomerAccount) : Bool :=
  (ordering.zip cursorValues).zipIdx.any fun (((column, direction), cursorValue), index) =>
    (((ordering.take index).zip (cursorValues.take index)).all fun ((precedingColumn, _), precedingValue) =>
      precedingColumn.get row = precedingValue) &&
    match direction with
    | .asc => cursorValue < column.get row
    | .desc => column.get row < cursorValue

/-- The `WHERE` clauses after the cursor's. -/
def filters (lower : Char → Char) (query : CustomerAccountListQuery) (row : CustomerAccount) : Bool :=
  (query.name.all fun name => nameMatches lower name row.name) &&
  (query.currency.all fun currency => currencyText row.currency = currency) &&
  (query.status.all fun status => row.status = status) &&
  (query.createdAtFrom.all fun from_ => from_ ≤ row.createdAt) &&
  (query.createdAtTo.all fun to_ => row.createdAt < to_)

def sortKey (clauses : List (Column × SortDirection)) (row : CustomerAccount) : List (Directed ColumnValue) :=
  clauses.map fun (column, direction) => directed (direction = .desc) (column.get row)

def select (lower : Char → Char) (query : CustomerAccountListQuery) (limit : Nat) (d : Database) :
    List CustomerAccount :=
  let scan := CursorScan.ofQuery query
  let rows := d.customerAccount.rows.filter fun row =>
    (!scan.cursorAccepted || buildCursorCondition scan.cursorOrdering scan.cursorValues row) &&
      filters lower query row
  (orderBy (sortKey scan.orderClauses) rows).take limit

end

def display (mac : VersionToken.Digest) (row : CustomerAccount) : CustomerAccountDisplay :=
  { id := row.id, customerId := row.customerId, currency := row.currency, name := row.name,
    status := row.status, createdAt := row.createdAt, updatedAt := row.updatedAt,
    updatedBy := some row.updatedBy, version := VersionToken.issue mac row.id row.version }

/-- The cursor that a page ending with a row gives. -/
def cursorAt (sortFields : List SortField) (row : CustomerAccountDisplay) : CustomerAccountListQueryCursor :=
  { currency := if .currency ∈ sortFields then some row.currency else none
    status := if .status ∈ sortFields then some row.status else none
    createdAt := if .createdAt ∈ sortFields then some row.createdAt else none
    id := row.id }

def CustomerAccountListQuery.limit (query : CustomerAccountListQuery) : Nat := query.count.getD 20

theorem CustomerAccountListQuery.limit_pos (query : CustomerAccountListQuery) : 0 < query.limit := by
  cases hcount : query.count with
  | none => simp [limit, hcount]
  | some n =>
    have := (query.countRange n hcount).1
    simp only [limit, hcount, Option.getD_some]
    omega

/-- `list_all`. -/
def listAll [LinearOrder Currency] [LinearOrder CustomerAccountStatus] (lower : Char → Char)
    (mac : VersionToken.Digest) (query : CustomerAccountListQuery) (d : Database) :
    List CustomerAccountDisplay × Option CustomerAccountListQueryCursor :=
  let mapped := (select lower query query.limit d).map (display mac)
  (mapped, if mapped.length = query.limit then
    mapped.getLast?.map (cursorAt (CursorScan.ofQuery query).sortFields) else none)

end Statement.Read
