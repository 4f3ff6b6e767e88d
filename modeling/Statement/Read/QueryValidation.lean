import Statement.Foundation.Base64
import Statement.Foundation.Text
import Statement.Foundation.Validation
import Statement.Read.ListQuery

/-! From query parameters to `CustomerAccountListQuery`.

Every parameter is text. Two fields have validators of their own, one takes a sort
apart and one decodes a cursor, and when all fields are valid a last validator
compares the bounds of the range. Pydantic turns a `ValueError` of a validator into
an error of the validation and lets any other exception out. How it reads a number, a
timestamp and the JSON of a cursor is a parameter. -/
namespace Statement.Read
open Domain Foundation

/-- A timestamp, without an offset or with one. -/
inductive DateTime where
  | naive (local_ : Timestamp)
  | aware (utc : Timestamp)
  deriving DecidableEq

/-- The exceptions that a validator raises; but for the last they are `ValueError`s. -/
inductive PyException where
  | valueError (text : String)
  | binasciiError (e : Base64.DecodeError)
  | unicodeError
  | validationError
  | typeError (text : String)
  deriving DecidableEq

def PyException.isValueError : PyException → Bool
  | .typeError _ => false
  | _ => true

namespace DateTime

/-- As an instant; a naive timestamp is one of the same clock as every other. -/
def instant : DateTime → Timestamp
  | naive t => t
  | aware t => t

def isAware : DateTime → Bool
  | naive _ => false
  | aware _ => true

/-- `date_from > date_to`. -/
def gt : DateTime → DateTime → Except PyException Bool
  | naive a, naive b => .ok (b < a)
  | aware a, aware b => .ok (b < a)
  | _, _ => .error (.typeError "can't compare offset-naive and offset-aware datetimes")

theorem gt_error {x y : DateTime} : (∃ e, x.gt y = .error e) ↔ x.isAware ≠ y.isAware := by
  cases x <;> cases y <;> simp [gt, isAware]

theorem gt_ok {x y : DateTime} {b : Bool} (h : x.gt y = .ok b) : b = true ↔ y.instant < x.instant := by
  cases x <;> cases y <;> simp_all [gt, instant, eq_comm]

end DateTime

/-- What pydantic makes of text, `none` where it refuses it. -/
structure Pydantic where
  int : String → Option Int
  datetime : String → Option DateTime
  /-- `CustomerAccountListQueryCursor.model_validate_json`. -/
  cursorJson : String → Option CustomerAccountListQueryCursor

/-- One error of a validation: the field it is about, and what a validator of the
schema has raised (`none` where the refusal is pydantic's own). -/
structure LineError where
  field : Option String
  raised : Option PyException
  deriving DecidableEq

abbrev Checked := Validation LineError PyException

section
variable {α : Type}

def required (field : String) (parse : String → Option α) (text : String) : Checked α :=
  match parse text with
  | none => .invalid [⟨some field, none⟩]
  | some a => .valid a

/-- A field that may be absent. -/
def optional (field : String) (parse : String → Option α) : Option String → Checked (Option α)
  | none => .valid none
  | some text => (required field parse text).map some

/-- The exceptions of a field's validator. -/
def validator (field : Option String) : Except PyException α → Checked α :=
  .ofExcept PyException.isValueError fun e => ⟨field, some e⟩

/-- A member of an enumeration by its value. -/
def member (value : α → String) (members : List α) (text : String) : Option α :=
  members.find? fun a => value a = text

end

/-! ### The sort -/

def SortField.value : SortField → String
  | .currency => "currency"
  | .status => "status"
  | .createdAt => "created_at"

def SortDirection.value : SortDirection → String
  | .asc => "asc"
  | .desc => "desc"

theorem SortField.value_inj {f g : SortField} (h : f.value = g.value) : f = g := by
  cases f <;> cases g <;> first | rfl | simp [value] at h

theorem SortDirection.value_inj {d e : SortDirection} (h : d.value = e.value) : d = e := by
  cases d <;> cases e <;> first | rfl | simp [value] at h

/-- The text that asks for a sort. -/
def SortRequest.text (r : SortRequest) : String := r.field.value ++ ":" ++ r.dir.value

/-- `_default_sort`. -/
def defaultSort : SortRequest := ⟨.createdAt, .desc⟩

/-- What the field is given: nothing, one value or several. An item that is no text is
`none`. -/
inductive SortValue where
  | missing
  | scalar (item : Option String)
  | several (items : List (Option String))

def parseItem : Option String → Except PyException (String × String)
  | none => .error (.valueError "Each sort value must be a string")
  | some item =>
    let (field, separator, direction) := Text.partition item ':'
    if separator = "" ∨ field = "" ∨ direction = "" then
      .error (.valueError "Sort must use the format '<field>:<asc|desc>'")
    else .ok (field, direction)

def parseSort : SortValue → Except PyException (List (String × String))
  | .missing => .ok [(defaultSort.field.value, defaultSort.dir.value)]
  | .scalar item => [item].mapM parseItem
  | .several items => items.mapM parseItem

/-- `SortRequest`, from its two texts. -/
def sortRequest (parsed : String × String) : Checked SortRequest :=
  (Validation.both
    (required "sort" (member SortField.value [.currency, .status, .createdAt]) parsed.1)
    (required "sort" (member SortDirection.value [.asc, .desc]) parsed.2)).map
      fun (field, dir) => ⟨field, dir⟩

def sortChecked (value : SortValue) : Checked (List SortRequest) :=
  (validator (some "sort") (parseSort value)).bind fun parsed => .all (parsed.map sortRequest)

/-! ### The query -/

/-- The parameters of a request, as text. -/
structure QueryParams where
  cursor : Option String := none
  count : Option String := none
  sort : SortValue := .missing
  name : Option String := none
  currency : Option String := none
  status : Option String := none
  createdAtFrom : Option String := none
  createdAtTo : Option String := none

def statusValue : CustomerAccountStatus → String
  | .active => "active"
  | .disabled => "disabled"
  | .deleted => "deleted"

section
variable (P : Pydantic)

/-- `CustomerAccountListQueryCursor.decode`. -/
def decodeCursor (cursor : String) : Except PyException CustomerAccountListQueryCursor :=
  match Base64.urlsafeB64decode cursor.toUTF8.toList with
  | .error e => .error (.binasciiError e)
  | .ok bytes =>
    match String.fromUTF8? ⟨bytes.toArray⟩ with
    | none => .error .unicodeError
    | some text =>
      match P.cursorJson text with
      | none => .error .validationError
      | some cursor => .ok cursor

/-- `parse_cursor`. -/
def parseCursor : Option String → Except PyException (Option CustomerAccountListQueryCursor)
  | none => .ok none
  | some value => (decodeCursor P value).map some

/-- From 1 to 100. -/
def parseCount (text : String) : Option { n : Nat // 1 ≤ n ∧ n ≤ 100 } :=
  (P.int text).bind fun n => if h : 1 ≤ n ∧ n ≤ 100 then some ⟨n.toNat, by omega⟩ else none

/-- The fields after their own validation, with their bounds still to be compared. -/
structure QueryFields where
  cursor : Option CustomerAccountListQueryCursor
  count : Option { n : Nat // 1 ≤ n ∧ n ≤ 100 }
  sort : List SortRequest
  name : Option String
  currency : Option String
  status : Option CustomerAccountStatus
  createdAtFrom : Option DateTime
  createdAtTo : Option DateTime

/-- What is checked of the fields but for the range. -/
def otherFields (p : QueryParams) : Checked ((Option CustomerAccountListQueryCursor ×
    Option { n : Nat // 1 ≤ n ∧ n ≤ 100 }) × List SortRequest × Option CustomerAccountStatus) :=
  .both (.both (validator (some "cursor") (parseCursor P p.cursor)) (optional "count" (parseCount P) p.count))
    (.both (sortChecked p.sort)
      (optional "status" (member statusValue [.active, .disabled, .deleted]) p.status))

def rangeFields (p : QueryParams) : Checked (Option DateTime × Option DateTime) :=
  .both (optional "created_at_from" P.datetime p.createdAtFrom)
    (optional "created_at_to" P.datetime p.createdAtTo)

def queryFields (p : QueryParams) : Checked QueryFields :=
  (Validation.both (otherFields P p) (rangeFields P p)).map
    fun (((cursor, count), sort, status), createdAtFrom, createdAtTo) =>
      { cursor, count, sort, name := p.name, currency := p.currency, status, createdAtFrom, createdAtTo }

end

namespace QueryFields
variable (f : QueryFields)

/-- The comparison of the bounds, where both are given. -/
def reversed : Except PyException Bool :=
  match f.createdAtFrom, f.createdAtTo with
  | some dateFrom, some dateTo => dateFrom.gt dateTo
  | _, _ => .ok false

theorem ordered {f : QueryFields} (h : f.reversed = .ok false) :
    ∀ i ∈ f.createdAtFrom.map DateTime.instant, ∀ j ∈ f.createdAtTo.map DateTime.instant, i ≤ j := by
  intro i hi j hj
  obtain ⟨x, hx, rfl⟩ := Option.map_eq_some_iff.mp hi
  obtain ⟨y, hy, rfl⟩ := Option.map_eq_some_iff.mp hj
  rw [reversed, hx, hy] at h
  exact Int.not_lt.mp fun hlt => Bool.false_ne_true ((DateTime.gt_ok h).mpr hlt)

/-- `validate_datetime_ranges`. -/
def validateDatetimeRanges : Except PyException CustomerAccountListQuery :=
  match h : f.reversed with
  | .error e => .error e
  | .ok true => .error (.valueError "created_at_from must be earlier than or equal to created_at_to")
  | .ok false => .ok
    { sort := f.sort, cursor := f.cursor, count := f.count.map (·.val), name := f.name
      currency := f.currency, status := f.status
      createdAtFrom := f.createdAtFrom.map DateTime.instant
      createdAtTo := f.createdAtTo.map DateTime.instant
      countRange := fun n hn => by
        obtain ⟨m, _, rfl⟩ := Option.map_eq_some_iff.mp hn
        exact m.property
      createdAtRange := ordered h }

end QueryFields

/-- Building the query. -/
def buildQuery (P : Pydantic) (p : QueryParams) : Checked CustomerAccountListQuery :=
  (queryFields P p).bind fun f => validator none f.validateDatetimeRanges

/-! ### What the validators raise -/

/-- All that is raised are `ValueError`s. -/
def RaisesValueError {α : Type} (r : Except PyException α) : Prop :=
  ∀ e, r = .error e → e.isValueError = true

section
variable {α β : Type}

theorem validator_escapes {field : Option String} {r : Except PyException α} :
    (validator field r).Escapes ↔ ¬ RaisesValueError r := by
  rw [validator, Validation.ofExcept_escapes, RaisesValueError]
  simp

theorem raisesValueError_mapM {f : α → Except PyException β} (h : ∀ a, RaisesValueError (f a))
    (l : List α) : RaisesValueError (l.mapM f) := by
  intro e he
  rcases mapM_cases l with ⟨e', he', a, _, ha⟩ | ⟨bs, hbs, _⟩
  · obtain rfl := Except.error.inj (he.symm.trans he')
    exact h a e ha
  · cases he.symm.trans hbs

theorem required_not_escapes {field : String} {parse : String → Option α} {text : String} :
    ¬ (required field parse text).Escapes := by
  unfold required
  split <;> simp

theorem optional_not_escapes {field : String} {parse : String → Option α} {text : Option String} :
    ¬ (optional field parse text).Escapes := by
  cases text with
  | none => simp [optional]
  | some text => simpa [optional] using required_not_escapes

theorem required_valid {field : String} {parse : String → Option α} {text : String} {a : α} :
    required field parse text = .valid a ↔ parse text = some a := by
  unfold required
  split <;> simp [*]

theorem optional_some {field : String} {parse : String → Option α} {text : Option String} {a : α} :
    optional field parse text = .valid (some a) ↔ ∃ t, text = some t ∧ parse t = some a := by
  cases text with
  | none => simp [optional]
  | some t => simp [optional, required_valid]

end

theorem parseItem_raises (item : Option String) : RaisesValueError (parseItem item) := by
  intro e he
  cases item with
  | none =>
    cases he
    rfl
  | some item =>
    simp only [parseItem] at he
    split at he
    · cases he
      rfl
    · cases he

theorem parseSort_raises (value : SortValue) : RaisesValueError (parseSort value) := by
  cases value with
  | missing => exact fun e he => nomatch he
  | scalar item => exact raisesValueError_mapM parseItem_raises [item]
  | several items => exact raisesValueError_mapM parseItem_raises items

/-- Whatever the client sends as a cursor: base64, UTF-8 and JSON fail with a `ValueError`. -/
theorem parseCursor_raises (P : Pydantic) (cursor : Option String) : RaisesValueError (parseCursor P cursor) := by
  intro e he
  cases cursor with
  | none => cases he
  | some value =>
    simp only [parseCursor, decodeCursor] at he
    split at he
    · cases he
      rfl
    · split at he
      · cases he
        rfl
      · split at he <;> cases he
        rfl

theorem sortChecked_not_escapes (value : SortValue) : ¬ (sortChecked value).Escapes := by
  rw [sortChecked, Validation.bind_escapes]
  rintro (h | ⟨parsed, _, h⟩)
  · exact validator_escapes.mp h (parseSort_raises value)
  · obtain ⟨x, hx, hescapes⟩ := Validation.all_escapes.mp h
    obtain ⟨texts, _, rfl⟩ := List.mem_map.mp hx
    rw [sortRequest, Validation.map_escapes, Validation.both_escapes] at hescapes
    exact hescapes.elim required_not_escapes required_not_escapes

/-- No field lets an exception out. -/
theorem queryFields_not_escapes (P : Pydantic) (p : QueryParams) : ¬ (queryFields P p).Escapes := by
  have hcursor : ¬ (validator (some "cursor") (parseCursor P p.cursor)).Escapes := fun h =>
    validator_escapes.mp h (parseCursor_raises P p.cursor)
  simp only [queryFields, otherFields, rangeFields, Validation.map_escapes, Validation.both_escapes, not_or]
  exact ⟨⟨⟨hcursor, optional_not_escapes⟩, sortChecked_not_escapes _, optional_not_escapes⟩,
    optional_not_escapes, optional_not_escapes⟩

/-! ### The sort that is built -/

theorem parseItem_ok {item : Option String} {field direction : String}
    (h : parseItem item = .ok (field, direction)) : item = some (field ++ ":" ++ direction) := by
  cases item with
  | none => cases h
  | some text =>
    simp only [parseItem] at h
    split at h
    · cases h
    · rename_i hparts
      cases h
      rw [not_or] at hparts
      have hjoined := Text.partition_append (s := text) (c := ':') rfl hparts.1
      have hcolon : String.singleton ':' = ":" := rfl
      rw [hcolon] at hjoined
      exact congrArg some hjoined

theorem member_some {α : Type} {value : α → String} {members : List α} {text : String} {a : α}
    (h : member value members text = some a) : value a = text := by
  simpa using List.find?_some h

/-- A sort request is the two texts that it was made from. -/
theorem sortRequest_valid {parsed : String × String} {r : SortRequest} (h : sortRequest parsed = .valid r) :
    r.field.value = parsed.1 ∧ r.dir.value = parsed.2 := by
  rw [sortRequest, Validation.map_valid] at h
  obtain ⟨⟨field, dir⟩, hboth, rfl⟩ := h
  obtain ⟨hfield, hdir⟩ := Validation.both_valid.mp hboth
  exact ⟨member_some (required_valid.mp hfield), member_some (required_valid.mp hdir)⟩

theorem sortRequests_valid {parsed : List (String × String)} {sort : List SortRequest}
    (h : Validation.all (parsed.map sortRequest) = .valid sort) :
    sort.map (fun r => (r.field.value, r.dir.value)) = parsed := by
  have hall := Validation.all_valid.mp h
  induction parsed generalizing sort with
  | nil =>
    cases sort with
    | nil => rfl
    | cons r sort => cases hall
  | cons x parsed ih =>
    cases sort with
    | nil => cases hall
    | cons r sort =>
      obtain ⟨hr, hrest⟩ := List.cons.inj hall
      obtain ⟨hfield, hdir⟩ := sortRequest_valid hr
      rw [List.map_cons, hfield, hdir, ih (Validation.all_valid.mpr hrest) hrest]

/-- Exactly the given items, in their order; the default when nothing is given. -/
def SortedAs : SortValue → List SortRequest → Prop
  | .missing, sort => sort = [defaultSort]
  | .scalar item, sort => [item] = sort.map fun r => some r.text
  | .several items, sort => items = sort.map fun r => some r.text

theorem items_parsed {items : List (Option String)} {parsed : List (String × String)}
    {sort : List SortRequest} (hitems : items.mapM parseItem = .ok parsed)
    (hsort : sort.map (fun r => (r.field.value, r.dir.value)) = parsed) :
    items = sort.map fun r => some r.text := by
  have hparsed : List.Forall₂ (fun item x => item = some (x.1 ++ ":" ++ x.2)) items parsed := by
    rcases mapM_cases items with ⟨e, he, _⟩ | ⟨parsed', hok, hall⟩
    · cases hitems.symm.trans he
    · obtain rfl := Except.ok.inj (hitems.symm.trans hok)
      exact hall.imp fun _ _ h => parseItem_ok h
  have hmap : items = parsed.map fun x => some (x.1 ++ ":" ++ x.2) := by
    rwa [← List.forall₂_map_right_iff, List.forall₂_eq_eq_eq] at hparsed
  rw [hmap, ← hsort, List.map_map]
  rfl

theorem sortChecked_valid {value : SortValue} {sort : List SortRequest}
    (h : sortChecked value = .valid sort) : SortedAs value sort := by
  rw [sortChecked, Validation.bind_valid] at h
  obtain ⟨parsed, hparsed, hall⟩ := h
  have hparsed := Validation.ofExcept_valid.mp hparsed
  have hsort := sortRequests_valid hall
  cases value with
  | missing =>
    cases hparsed
    obtain ⟨⟨field, dir⟩, rfl, hr⟩ := List.map_eq_singleton_iff.mp hsort
    obtain ⟨hfield, hdir⟩ := Prod.mk.inj hr
    obtain rfl := SortField.value_inj hfield
    obtain rfl := SortDirection.value_inj hdir
    rfl
  | scalar item => exact items_parsed hparsed hsort
  | several items => exact items_parsed hparsed hsort

/-! ### The query that is built -/

/-- Both bounds are given, and exactly one of them has an offset. -/
def MixedBounds (P : Pydantic) (p : QueryParams) : Prop :=
  ∃ a b x y, p.createdAtFrom = some a ∧ p.createdAtTo = some b ∧ P.datetime a = some x ∧
    P.datetime b = some y ∧ x.isAware ≠ y.isAware

/-- What a query that is built says of its parameters. -/
structure Faithful (P : Pydantic) (p : QueryParams) (query : CustomerAccountListQuery) : Prop where
  range : ∀ a b, p.createdAtFrom = some a → p.createdAtTo = some b →
    ∃ x y, P.datetime a = some x ∧ P.datetime b = some y ∧ x.instant ≤ y.instant ∧
      query.createdAtFrom = some x.instant ∧ query.createdAtTo = some y.instant
  sort : SortedAs p.sort query.sort

section
variable {P : Pydantic} {p : QueryParams}

theorem queryFields_valid {f : QueryFields} (h : queryFields P p = .valid f) :
    (∃ x, otherFields P p = .valid x ∧ sortChecked p.sort = .valid f.sort) ∧
      optional "created_at_from" P.datetime p.createdAtFrom = .valid f.createdAtFrom ∧
      optional "created_at_to" P.datetime p.createdAtTo = .valid f.createdAtTo := by
  rw [queryFields, Validation.map_valid] at h
  obtain ⟨⟨⟨⟨cursor, count⟩, sort, status⟩, createdAtFrom, createdAtTo⟩, hboth, rfl⟩ := h
  obtain ⟨hother, hrange⟩ := Validation.both_valid.mp hboth
  obtain ⟨hfrom, hto⟩ := Validation.both_valid.mp hrange
  exact ⟨⟨_, hother, (Validation.both_valid.mp (Validation.both_valid.mp hother).2).1⟩, hfrom, hto⟩

/-- What the last validator raises but no `ValueError` is the comparison's. -/
theorem validateDatetimeRanges_error {f : QueryFields} {e : PyException} (he : e.isValueError = false) :
    f.validateDatetimeRanges = .error e ↔ f.reversed = .error e := by
  unfold QueryFields.validateDatetimeRanges
  split
  · rename_i hreversed
    rw [hreversed, Except.error.injEq, Except.error.injEq]
  · rename_i hreversed
    rw [hreversed, Except.error.injEq]
    refine ⟨?_, fun h => (nomatch h)⟩
    rintro rfl
    cases he
  · rename_i hreversed
    refine ⟨fun h => (nomatch h), fun h => ?_⟩
    rw [hreversed] at h
    cases h

theorem validateDatetimeRanges_ok {f : QueryFields} {query : CustomerAccountListQuery}
    (h : f.validateDatetimeRanges = .ok query) : f.reversed = .ok false ∧ query.sort = f.sort ∧
      query.createdAtFrom = f.createdAtFrom.map DateTime.instant ∧
      query.createdAtTo = f.createdAtTo.map DateTime.instant := by
  unfold QueryFields.validateDatetimeRanges at h
  split at h
  · cases h
  · cases h
  · rename_i hreversed
    cases h
    exact ⟨hreversed, rfl, rfl, rfl⟩

/-- The comparison raises on mixed bounds, and on nothing else. -/
theorem reversed_error {f : QueryFields} : (∃ e, f.reversed = .error e) ↔
    ∃ x y, f.createdAtFrom = some x ∧ f.createdAtTo = some y ∧ x.isAware ≠ y.isAware := by
  unfold QueryFields.reversed
  split
  · rename_i x y hx hy
    rw [DateTime.gt_error]
    simp [hx, hy]
  · rename_i hnone
    constructor
    · rintro ⟨e, he⟩
      cases he
    · rintro ⟨x, y, hx, hy, _⟩
      exact absurd hy (hnone x y hx)

theorem reversed_isValueError {f : QueryFields} {e : PyException} (h : f.reversed = .error e) :
    e.isValueError = false := by
  unfold QueryFields.reversed at h
  split at h
  · rename_i x y _ _
    cases x <;> cases y <;> cases h <;> rfl
  · cases h

/-- Building lets an exception out exactly when it compares mixed bounds. -/
theorem buildQuery_escapes : (buildQuery P p).Escapes ↔
    MixedBounds P p ∧ ∃ x, otherFields P p = .valid x := by
  rw [buildQuery, Validation.bind_escapes]
  constructor
  · rintro (h | ⟨f, hf, h⟩)
    · exact absurd h (queryFields_not_escapes P p)
    · obtain ⟨e, he, hclass⟩ := Validation.ofExcept_escapes.mp h
      have hreversed := (validateDatetimeRanges_error hclass).mp he
      obtain ⟨x, y, hx, hy, hkinds⟩ := reversed_error.mp ⟨e, hreversed⟩
      obtain ⟨⟨others, hothers, _⟩, hfrom, hto⟩ := queryFields_valid hf
      rw [hx] at hfrom
      rw [hy] at hto
      obtain ⟨a, ha, hax⟩ := optional_some.mp hfrom
      obtain ⟨b, hb, hby⟩ := optional_some.mp hto
      exact ⟨⟨a, b, x, y, ha, hb, hax, hby, hkinds⟩, others, hothers⟩
  · rintro ⟨⟨a, b, x, y, ha, hb, hax, hby, hkinds⟩, ⟨⟨cursor, count⟩, sort, status⟩, hothers⟩
    have hrange : rangeFields P p = .valid (some x, some y) :=
      Validation.both_valid.mpr ⟨optional_some.mpr ⟨a, ha, hax⟩, optional_some.mpr ⟨b, hb, hby⟩⟩
    let f : QueryFields := ⟨cursor, count, sort, p.name, p.currency, status, some x, some y⟩
    have hfields : queryFields P p = .valid f :=
      Validation.map_valid.mpr ⟨_, Validation.both_valid.mpr ⟨hothers, hrange⟩, rfl⟩
    obtain ⟨e, he⟩ := (reversed_error (f := f)).mpr ⟨x, y, rfl, rfl, hkinds⟩
    have hclass := reversed_isValueError he
    exact .inr ⟨_, hfields,
      Validation.ofExcept_escapes.mpr ⟨e, (validateDatetimeRanges_error hclass).mpr he, hclass⟩⟩

/-- A query that is built has passed the comparison and keeps the sort. -/
theorem buildQuery_valid {query : CustomerAccountListQuery} (h : buildQuery P p = .valid query) :
    Faithful P p query := by
  obtain ⟨f, hf, hvalidated⟩ := Validation.bind_valid.mp h
  obtain ⟨hreversed, hsort, hqueryFrom, hqueryTo⟩ :=
    validateDatetimeRanges_ok (Validation.ofExcept_valid.mp hvalidated)
  obtain ⟨⟨_, _, hfields⟩, hfrom, hto⟩ := queryFields_valid hf
  refine ⟨fun a b ha hb => ?_, hsort ▸ sortChecked_valid hfields⟩
  rw [ha] at hfrom
  rw [hb] at hto
  obtain ⟨x, hx, hfx⟩ := Validation.map_valid.mp hfrom
  obtain ⟨y, hy, hfy⟩ := Validation.map_valid.mp hto
  have hx' : f.createdAtFrom.map DateTime.instant = some x.instant := by rw [← hfx]; rfl
  have hy' : f.createdAtTo.map DateTime.instant = some y.instant := by rw [← hfy]; rfl
  exact ⟨x, y, required_valid.mp hx, required_valid.mp hy, QueryFields.ordered hreversed _ hx' _ hy',
    hqueryFrom.trans hx', hqueryTo.trans hy'⟩

end

/-- **Every malformed query is a validation error, unless its bounds are of two kinds.** -/
theorem query_validation_iff (P : Pydantic) (p : QueryParams) :
    (¬ (buildQuery P p).Escapes ∧ ∀ query, buildQuery P p = .valid query → Faithful P p query) ↔
      ¬ (MixedBounds P p ∧ ∃ x, otherFields P p = .valid x) := by
  rw [buildQuery_escapes]
  exact and_iff_left fun query => buildQuery_valid

/-- A reader of two timestamps of March 2026, one of them without an offset. -/
def twoTimestamps : Pydantic where
  int _ := none
  datetime text :=
    if text = "2026-03-01T12:00:00" then some (.naive 1772366400000000)
    else if text = "2026-03-02T12:00:00Z" then some (.aware 1772452800000000)
    else none
  cursorJson _ := none

/-- The one bound without an offset, the other in UTC. -/
theorem mixed_bounds_escape : (buildQuery twoTimestamps
    { createdAtFrom := some "2026-03-01T12:00:00", createdAtTo := some "2026-03-02T12:00:00Z" }).Escapes :=
  ⟨.typeError "can't compare offset-naive and offset-aware datetimes", rfl⟩

end Statement.Read
