import Statement.Foundation.Keyset
import Statement.Read.ListQuery

/-! A client that pages through the account list.

It sends the same query each time, with the cursor of the page before, while the
database may become any other. A page of `list_all` is a page of the keyset library
(`listAll_first`, `listAll_follow`), under the key that the sort requests and the
id make up; so nothing that stays in its place is lost or comes twice. -/
namespace Statement.Read
open Domain Foundation Account

/-! ### What is asked for -/

section
variable (lower : Char → Char)

/-- The row passes every filter that the query gives. -/
structure Matches (query : CustomerAccountListQuery) (row : CustomerAccount) : Prop where
  name : ∀ text ∈ query.name, ∃ name, row.name = some name ∧
    text.toList.map lower <:+: name.toList.map lower
  currency : ∀ text ∈ query.currency, currencyText row.currency = text
  status : ∀ status ∈ query.status, row.status = status
  createdAtFrom : ∀ time ∈ query.createdAtFrom, time ≤ row.createdAt
  createdAtTo : ∀ time ∈ query.createdAtTo, row.createdAt < time

variable {lower}

theorem filters_iff (query : CustomerAccountListQuery) (row : CustomerAccount) :
    filters lower query row = true ↔ Matches lower query row := by
  have hname : (query.name.all fun text => nameMatches lower text row.name) = true ↔
      ∀ text ∈ query.name, ∃ name, row.name = some name ∧
        text.toList.map lower <:+: name.toList.map lower := by
    rw [Option.all_eq_true]
    refine forall₂_congr fun text _ => ?_
    cases row.name with
    | none => simp [nameMatches]
    | some name => simp [nameMatches_iff]
  simp only [filters, Bool.and_eq_true, hname, Option.all_eq_true, decide_eq_true_eq]
  constructor
  · intro h
    exact ⟨h.1.1.1.1, h.1.1.1.2, h.1.1.2, h.1.2, h.2⟩
  · intro h
    exact ⟨⟨⟨⟨h.name, h.currency⟩, h.status⟩, h.createdAtFrom⟩, h.createdAtTo⟩

instance (query : CustomerAccountListQuery) (row : CustomerAccount) : Decidable (Matches lower query row) :=
  decidable_of_iff _ (filters_iff query row)

end

def SameField (x y : CustomerAccountDisplay) : SortField → Prop
  | .currency => x.currency = y.currency
  | .status => x.status = y.status
  | .createdAt => x.createdAt = y.createdAt

section
variable [LinearOrder Currency] [LinearOrder CustomerAccountStatus]

def FieldBefore (x y : CustomerAccountDisplay) : SortField → Prop
  | .currency => x.currency < y.currency
  | .status => x.status < y.status
  | .createdAt => x.createdAt < y.createdAt

/-- The requested order: by each request in turn, then by the id, descending. -/
def Before (x y : CustomerAccountDisplay) : List SortRequest → Prop
  | [] => y.id < x.id
  | r :: rest =>
    (match r.dir with
      | .asc => FieldBefore x y r.field
      | .desc => FieldBefore y x r.field) ∨
    (SameField x y r.field ∧ Before x y rest)

end

/-! ### The cursor condition -/

/-- The `ORDER BY` of a query. -/
def clauses (sort : List SortRequest) : List (Column × SortDirection) :=
  sort.map (fun r => (r.field.column, r.dir)) ++ [(Column.id, SortDirection.desc)]

/-- The cursor that a page ending with a row gives has the row's values. -/
def cursorOf (sort : List SortRequest) (row : CustomerAccountDisplay) : CustomerAccountListQueryCursor :=
  cursorAt (sort.map (·.field)) row

theorem scan_orderClauses (cursor : Option CustomerAccountListQueryCursor) (sort : List SortRequest)
    (s : CursorScan) :
    (sort.foldl (CursorScan.request cursor) s).orderClauses =
        s.orderClauses ++ sort.map (fun r => (r.field.column, r.dir)) ∧
      (sort.foldl (CursorScan.request cursor) s).sortFields = s.sortFields ++ sort.map (·.field) := by
  induction sort generalizing s with
  | nil => simp
  | cons r rest ih =>
    have hrequest : (CursorScan.request cursor s r).orderClauses =
          s.orderClauses ++ [(r.field.column, r.dir)] ∧
        (CursorScan.request cursor s r).sortFields = s.sortFields ++ [r.field] := by
      simp only [CursorScan.request]
      split <;> exact ⟨rfl, rfl⟩
    rw [List.foldl_cons, (ih _).1, (ih _).2, hrequest.1, hrequest.2]
    simp

theorem ofQuery_orderClauses (query : CustomerAccountListQuery) :
    (CursorScan.ofQuery query).orderClauses = clauses query.sort ∧
      (CursorScan.ofQuery query).sortFields = query.sort.map (·.field) := by
  obtain ⟨horder, hfields⟩ := scan_orderClauses query.cursor query.sort .empty
  simp only [CursorScan.ofQuery, CursorScan.finish]
  split
  · exact ⟨by rw [horder]; rfl, by rw [hfields]; rfl⟩
  · split
    · exact ⟨by rw [horder]; rfl, by rw [hfields]; rfl⟩
    · exact ⟨by rw [horder]; rfl, by rw [hfields]; rfl⟩

/-- A cursor taken from a row has a value for every sort field, so it is accepted. -/
theorem cursorOf_value {sort : List SortRequest} {r : SortRequest} (hr : r ∈ sort)
    (mac : VersionToken.Digest) (row : CustomerAccount) :
    (cursorOf sort (display mac row)).value r.field = some (r.field.column.get row) := by
  have hmem : r.field ∈ sort.map (·.field) := List.mem_map_of_mem hr
  cases hf : r.field <;> rw [hf] at hmem <;>
    simp [cursorOf, cursorAt, CustomerAccountListQueryCursor.value, hmem, display, SortField.column,
      Column.get]

theorem scan_cursor {cursor : CustomerAccountListQueryCursor} {row : CustomerAccount}
    {sort : List SortRequest} (h : ∀ r ∈ sort, cursor.value r.field = some (r.field.column.get row))
    (s : CursorScan) :
    (sort.foldl (CursorScan.request (some cursor)) s).cursorAccepted = s.cursorAccepted ∧
      (sort.foldl (CursorScan.request (some cursor)) s).cursorOrdering =
        s.cursorOrdering ++ sort.map (fun r => (r.field.column, r.dir)) ∧
      (sort.foldl (CursorScan.request (some cursor)) s).cursorValues =
        s.cursorValues ++ sort.map (fun r => r.field.column.get row) := by
  induction sort generalizing s with
  | nil => simp
  | cons r rest ih =>
    have ih := ih (fun q hq => h q (List.mem_cons_of_mem r hq)) (CursorScan.request (some cursor) s r)
    have hr := h r List.mem_cons_self
    rw [List.foldl_cons, ih.1, ih.2.1, ih.2.2]
    simp [CursorScan.request, hr]

theorem ofQuery_none {query : CustomerAccountListQuery} (h : query.cursor = none) :
    (CursorScan.ofQuery query).cursorAccepted = false := by
  simp [CursorScan.ofQuery, CursorScan.finish, h]

theorem ofQuery_cursorOf {query : CustomerAccountListQuery} {mac : VersionToken.Digest}
    {row : CustomerAccount} (h : query.cursor = some (cursorOf query.sort (display mac row))) :
    (CursorScan.ofQuery query).cursorAccepted = true ∧
      (CursorScan.ofQuery query).cursorOrdering = clauses query.sort ∧
      (CursorScan.ofQuery query).cursorValues = (clauses query.sort).map (·.1.get row) := by
  have hvalue : ∀ r ∈ query.sort,
      (cursorOf query.sort (display mac row)).value r.field = some (r.field.column.get row) :=
    fun r hr => cursorOf_value hr mac row
  obtain ⟨haccepted, hordering, hvalues⟩ := scan_cursor hvalue .empty
  have htrue : (query.sort.foldl (CursorScan.request
      (some (cursorOf query.sort (display mac row)))) .empty).cursorAccepted = true := haccepted
  rw [CursorScan.ofQuery, h, CursorScan.finish]
  simp only [htrue, if_true, hordering, hvalues]
  refine ⟨trivial, rfl, ?_⟩
  simp [CursorScan.empty, clauses, cursorOf, cursorAt, display, Column.get]

theorem zip_map_self {α β : Type} (f : α → β) (l : List α) :
    l.zip (l.map f) = l.map fun a => (a, f a) := by
  induction l with
  | nil => rfl
  | cons a l ih => rw [List.map_cons, List.zip_cons_cons, ih, List.map_cons]

/-- What precedes is equal exactly when the keys begin alike. -/
theorem sortKey_take (ordering : List (Column × SortDirection)) (a b : CustomerAccount) (i : Nat) :
    (sortKey ordering a).take i = (sortKey ordering b).take i ↔
      ∀ o ∈ ordering.take i, o.1.get b = o.1.get a := by
  rw [sortKey, sortKey, ← List.map_take, ← List.map_take, List.map_inj_left]
  exact forall₂_congr fun o _ => directed_inj.trans eq_comm

theorem sortKey_getElem {ordering : List (Column × SortDirection)} {row : CustomerAccount} {i : Nat}
    {k : Directed ColumnValue} : (sortKey ordering row)[i]? = some k ↔
      ∃ o, ordering[i]? = some o ∧ directed (o.2 = .desc) (o.1.get row) = k := by
  rw [sortKey, List.getElem?_map, Option.map_eq_some_iff]

/-- The id is part of the key. -/
theorem sortKey_id {sort : List SortRequest} {a b : CustomerAccount}
    (h : sortKey (clauses sort) a = sortKey (clauses sort) b) : a.id = b.id := by
  have hlast : ∀ row, (sortKey (clauses sort) row).getLast? =
      some (directed true (ColumnValue.id row.id)) := by
    intro row
    simp [sortKey, clauses, Column.get]
  have hid := hlast a
  rw [h, hlast b, Option.some.injEq, directed_inj] at hid
  simpa [ColumnValue.id] using hid.symm

/-- What has the same sort fields and the same id has the same key. -/
theorem sortKey_eq {mac : VersionToken.Digest} {sort : List SortRequest} {a b : CustomerAccount}
    (h : ∀ r ∈ sort, SameField (display mac a) (display mac b) r.field) (hid : a.id = b.id) :
    sortKey (clauses sort) a = sortKey (clauses sort) b := by
  refine List.map_congr_left fun o ho => ?_
  rcases List.mem_append.mp ho with ho | ho
  · obtain ⟨r, hr, rfl⟩ := List.mem_map.mp ho
    have hsame := h r hr
    rw [directed_inj]
    cases hf : r.field <;> rw [hf] at hsame
    · exact congrArg ColumnValue.currency hsame
    · exact congrArg ColumnValue.status hsame
    · exact congrArg ColumnValue.createdAt hsame
  · rw [List.mem_singleton.mp ho]
    simp [Column.get, hid]

/-- The rows that match. -/
def table (lower : Char → Char) (query : CustomerAccountListQuery) (d : Database) : List CustomerAccount :=
  d.customerAccount.rows.filter (filters lower query)

theorem table_distinct (lower : Char → Char) (query : CustomerAccountListQuery) (sort : List SortRequest)
    (d : Database) :
    (table lower query d).Pairwise fun a b => sortKey (clauses sort) a ≠ sortKey (clauses sort) b :=
  (d.customerAccount.distinct.filter _).imp fun hclash heq => hclash (.inl (sortKey_id heq))

section
variable [LinearOrder Currency] [LinearOrder CustomerAccountStatus]

/-- **The disjunction over prefixes is the lexicographic order.** -/
theorem buildCursorCondition_iff (ordering : List (Column × SortDirection)) (last row : CustomerAccount) :
    buildCursorCondition ordering (ordering.map (·.1.get last)) row = true ↔
      sortKey ordering last < sortKey ordering row := by
  have hpreceding : ∀ i, (((ordering.take i).zip ((ordering.map (·.1.get last)).take i)).all
      fun x => decide (x.1.1.get row = x.2)) = true ↔
        (sortKey ordering last).take i = (sortKey ordering row).take i := by
    intro i
    rw [sortKey_take, ← List.map_take, zip_map_self, List.all_map, List.all_eq_true]
    exact forall₂_congr fun o _ => decide_eq_true_iff
  have hcompare : ∀ o : Column × SortDirection,
      (match o.2 with
        | .asc => decide (o.1.get last < o.1.get row)
        | .desc => decide (o.1.get row < o.1.get last)) = true ↔
      directed (o.2 = .desc) (o.1.get last) < directed (o.2 = .desc) (o.1.get row) := by
    intro o
    obtain ⟨column, direction⟩ := o
    rw [directed_lt]
    cases direction <;> simp
  rw [lt_iff_take (by simp [sortKey]), buildCursorCondition, zip_map_self, List.any_eq_true]
  constructor
  · intro h
    obtain ⟨⟨x, i⟩, hmem, hcond⟩ := h
    have hget := List.mem_zipIdx_iff_getElem?.mp hmem
    rw [List.getElem?_map, Option.map_eq_some_iff] at hget
    obtain ⟨o, ho, rfl⟩ := hget
    obtain ⟨hall, hlt⟩ := (Bool.and_eq_true _ _).mp hcond
    exact ⟨i, _, _, sortKey_getElem.mpr ⟨o, ho, rfl⟩, sortKey_getElem.mpr ⟨o, ho, rfl⟩,
      (hpreceding i).mp hall, (hcompare o).mp hlt⟩
  · intro h
    obtain ⟨i, a, b, ha, hb, htake, hlt⟩ := h
    obtain ⟨o, ho, rfl⟩ := sortKey_getElem.mp ha
    obtain ⟨o', ho', rfl⟩ := sortKey_getElem.mp hb
    obtain rfl : o = o' := Option.some.inj (ho.symm.trans ho')
    refine ⟨((o, o.1.get last), i), ?_, (Bool.and_eq_true _ _).mpr ⟨(hpreceding i).mpr htake,
      (hcompare o).mpr hlt⟩⟩
    rw [List.mem_zipIdx_iff_getElem?, List.getElem?_map, ho]
    rfl

/-- The key of a row is its place in the requested order. -/
theorem sortKey_lt (mac : VersionToken.Digest) (sort : List SortRequest) (a b : CustomerAccount) :
    sortKey (clauses sort) a < sortKey (clauses sort) b ↔ Before (display mac a) (display mac b) sort := by
  induction sort with
  | nil =>
    have hid : directed (SortDirection.desc = .desc) (ColumnValue.id a.id) <
        directed (SortDirection.desc = .desc) (ColumnValue.id b.id) ↔ b.id < a.id := by
      rw [directed_lt]
      simp [ColumnValue.id]
    simpa [sortKey, clauses, Before, List.cons_lt_cons_iff, Column.get, display] using hid
  | cons r rest ih =>
    have hcons : ∀ row, sortKey (clauses (r :: rest)) row =
        directed (r.dir = .desc) (r.field.column.get row) :: sortKey (clauses rest) row := fun _ => rfl
    have hlt : ∀ x y : CustomerAccount, r.field.column.get x < r.field.column.get y ↔
        FieldBefore (display mac x) (display mac y) r.field := by
      intro x y
      cases r.field <;> simp [SortField.column, Column.get, FieldBefore, display, ColumnValue.currency,
        ColumnValue.status, ColumnValue.createdAt]
    have hsame : directed (r.dir = .desc) (r.field.column.get a) =
        directed (r.dir = .desc) (r.field.column.get b) ↔
          SameField (display mac a) (display mac b) r.field := by
      rw [directed_inj]
      cases r.field <;> simp [SortField.column, Column.get, SameField, display, ColumnValue.currency,
        ColumnValue.status, ColumnValue.createdAt]
    rw [hcons, hcons, List.cons_lt_cons_iff, ih, hsame, directed_lt, Before]
    cases r.dir <;> simp [hlt]

/-! ### A page of the list is a page of the library -/

variable (lower : Char → Char) (mac : VersionToken.Digest) (query : CustomerAccountListQuery)

/-- The query of a page. -/
def CustomerAccountListQuery.at_ (query : CustomerAccountListQuery)
    (cursor : Option CustomerAccountListQueryCursor) : CustomerAccountListQuery := { query with cursor }

/-- What the client is sent of a page. -/
def answer (p : List CustomerAccount) :
    List CustomerAccountDisplay × Option CustomerAccountListQueryCursor :=
  (p.map (display mac), if p.length = query.limit then
    p.getLast?.map fun row => cursorOf query.sort (display mac row) else none)

theorem listAll_eq (d : Database) : listAll lower mac query d =
    answer mac query (select lower query query.limit d) := by
  simp only [listAll, answer, (ofQuery_orderClauses query).2, List.length_map, List.getLast?_map,
    Option.map_map]
  rfl

theorem listAll_first (d : Database) : listAll lower mac (query.at_ none) d =
    answer mac query (Keyset.page (sortKey (clauses query.sort)) query.limit none (table lower query d)) := by
  have hnone : (CursorScan.ofQuery (query.at_ none)).cursorAccepted = false := ofQuery_none rfl
  have hselect : select lower (query.at_ none) query.limit d =
      Keyset.page (sortKey (clauses query.sort)) query.limit none (table lower query d) := by
    rw [Keyset.page_none, select, (ofQuery_orderClauses _).1, hnone]
    rfl
  rw [listAll_eq, ← hselect]
  rfl

theorem listAll_follow (last : CustomerAccount) (d : Database) :
    listAll lower mac (query.at_ (some (cursorOf query.sort (display mac last)))) d =
      answer mac query (Keyset.page (sortKey (clauses query.sort)) query.limit
        (some (sortKey (clauses query.sort) last)) (table lower query d)) := by
  set follow := query.at_ (some (cursorOf query.sort (display mac last))) with hfollow
  obtain ⟨haccepted, hordering, hvalues⟩ :=
    ofQuery_cursorOf (show follow.cursor = some (cursorOf follow.sort (display mac last)) from rfl)
  have hselect : select lower follow query.limit d = Keyset.page (sortKey (clauses query.sort)) query.limit
      (some (sortKey (clauses query.sort) last)) (table lower query d) := by
    rw [select, (ofQuery_orderClauses _).1, haccepted, hordering, hvalues, Keyset.page, table,
      List.filter_filter]
    refine congrArg (fun rows => (orderBy _ rows).take _) (List.filter_congr fun row _ => ?_)
    rw [Bool.not_true, Bool.false_or, Keyset.past_some]
    congr 1
    exact Bool.eq_iff_iff.mpr ((buildCursorCondition_iff _ _ _).trans decide_eq_true_iff.symm)
  rw [listAll_eq, ← hselect]
  rfl

/-! ### The walk -/

/-- The `n`-th answer, when the `i`-th request finds `dbs i`; `none` when there was
no cursor to follow before. -/
def answerAt (dbs : Nat → Database) :
    Nat → Option (List CustomerAccountDisplay × Option CustomerAccountListQueryCursor)
  | 0 => some (listAll lower mac (query.at_ none) (dbs 0))
  | n + 1 => do
    let (_, cursor) ← answerAt dbs n
    let c ← cursor
    some (listAll lower mac (query.at_ (some c)) (dbs (n + 1)))

/-- The `n`-th page is the last one. -/
def WalkEnds (dbs : Nat → Database) (n : Nat) : Prop :=
  ∃ p, answerAt lower mac query dbs n = some (p, none)

/-- The pages up to the `n`-th, one after the other. -/
def pages (dbs : Nat → Database) (n : Nat) : List CustomerAccountDisplay :=
  (List.range (n + 1)).flatMap fun i => ((answerAt lower mac query dbs i).map Prod.fst).getD []

theorem answerAt_eq (dbs : Nat → Database) (n : Nat) : answerAt lower mac query dbs n =
    (Keyset.pageAt (sortKey (clauses query.sort)) query.limit (fun i => table lower query (dbs i)) n).map
      (answer mac query) := by
  induction n with
  | zero =>
    rw [answerAt, listAll_first]
    rfl
  | succ n ih =>
    rw [answerAt, ih]
    simp only [Keyset.pageAt]
    cases Keyset.pageAt (sortKey (clauses query.sort)) query.limit
        (fun i => table lower query (dbs i)) n with
    | none => rfl
    | some p =>
      simp only [Option.map_some, Option.bind_eq_bind, Option.bind_some, answer, Keyset.next]
      by_cases hfull : p.length = query.limit
      · rw [if_pos hfull, if_pos hfull]
        cases p.getLast? with
        | none => rfl
        | some last =>
          simp only [Option.map_some, Option.bind_some]
          rw [listAll_follow]
      · rw [if_neg hfull, if_neg hfull]
        rfl

theorem walkEnds_iff (dbs : Nat → Database) (n : Nat) : WalkEnds lower mac query dbs n ↔
    Keyset.Ends (sortKey (clauses query.sort)) query.limit (fun i => table lower query (dbs i)) n := by
  have hnone : ∀ p : List CustomerAccount, (answer mac query p).2 = none ↔
      Keyset.next (sortKey (clauses query.sort)) query.limit p = none := by
    intro p
    simp only [answer, Keyset.next]
    split <;> simp
  rw [WalkEnds, answerAt_eq]
  constructor
  · intro h
    obtain ⟨shown, h⟩ := h
    obtain ⟨p, hp, heq⟩ := Option.map_eq_some_iff.mp h
    exact ⟨p, hp, (hnone p).mp (by rw [heq])⟩
  · intro h
    obtain ⟨p, hp, hnext⟩ := h
    exact ⟨p.map (display mac), by rw [hp, Option.map_some, ← (hnone p).mpr hnext]; rfl⟩

theorem pages_eq (dbs : Nat → Database) (n : Nat) : pages lower mac query dbs n =
    (Keyset.returned (sortKey (clauses query.sort)) query.limit (fun i => table lower query (dbs i)) n).map
      (display mac) := by
  rw [pages, Keyset.returned, List.map_flatMap]
  refine List.flatMap_congr fun i _ => ?_
  rw [answerAt_eq]
  cases Keyset.pageAt (sortKey (clauses query.sort)) query.limit (fun i => table lower query (dbs i)) i <;>
    rfl

/-- A row that stays in its place is returned once. -/
theorem stable_account_once (dbs : Nat → Database) {n : Nat} (hends : WalkEnds lower mac query dbs n)
    {u : UUID} {row : Nat → CustomerAccount} (hfound : ∀ i ≤ n, (dbs i).findById u = some (row i))
    (hmatches : ∀ i ≤ n, Matches lower query (row i))
    (hstays : ∀ i ≤ n, ∀ r ∈ query.sort,
      SameField (display mac (row i)) (display mac (row 0)) r.field) :
    (pages lower mac query dbs n).countP (·.id = u) = 1 := by
  have hid : ∀ i ≤ n, (row i).id = u := fun i hi => (Database.findById_mem (hfound i hi)).2
  have hkey : ∀ i ≤ n, sortKey (clauses query.sort) (row i) = sortKey (clauses query.sort) (row 0) :=
    fun i hi => sortKey_eq (hstays i hi) ((hid i hi).trans (hid 0 (Nat.zero_le n)).symm)
  have hintable : ∀ i ≤ n, ∃ r ∈ table lower query (dbs i),
      sortKey (clauses query.sort) r = sortKey (clauses query.sort) (row 0) := by
    intro i hi
    have hmem := (Database.findById_mem (hfound i hi)).1
    exact ⟨row i, List.mem_filter.mpr ⟨hmem, (filters_iff query (row i)).mpr (hmatches i hi)⟩, hkey i hi⟩
  have honce := Keyset.stable_once query.limit_pos
    (fun i => table_distinct lower query query.sort (dbs i)) hintable ((walkEnds_iff _ _ _ _ _).mp hends)
  rw [pages_eq, List.countP_map, ← honce]
  refine List.countP_congr fun r hr => ?_
  -- a row of the walk has the key exactly if it has the id
  obtain ⟨i, hi, hr⟩ := Keyset.mem_returned hr
  simp only [Function.comp_apply, decide_eq_true_eq]
  constructor
  · intro hru
    have hrow : r = row i := by
      have hfind := Database.findById_of_mem (List.mem_of_mem_filter hr)
      rw [show r.id = u from hru, hfound i hi] at hfind
      exact (Option.some.inj hfind).symm
    rw [hrow, hkey i hi]
  · intro hrk
    exact (sortKey_id hrk).trans (hid 0 (Nat.zero_le n))

/-- **Pagination neither loses nor repeats rows.** -/
theorem pagination (dbs : Nat → Database) :
    (∀ n, WalkEnds lower mac query dbs n → ∀ u, ∀ row : Nat → CustomerAccount,
      (∀ i ≤ n, (dbs i).findById u = some (row i) ∧ Matches lower query (row i) ∧
        ∀ r ∈ query.sort, SameField (display mac (row i)) (display mac (row 0)) r.field) →
      (pages lower mac query dbs n).countP (·.id = u) = 1) ∧
    (∀ n, (pages lower mac query dbs n).Pairwise fun x y => Before x y query.sort) ∧
    ∀ d, ∃ n, WalkEnds lower mac query (fun _ => d) n ∧
      (pages lower mac query (fun _ => d) n).Perm
        ((d.customerAccount.rows.filter fun row => Matches lower query row).map (display mac)) := by
  have hdistinct : ∀ i, (table lower query (dbs i)).Pairwise fun a b =>
      sortKey (clauses query.sort) a ≠ sortKey (clauses query.sort) b :=
    fun i => table_distinct lower query query.sort (dbs i)
  refine ⟨fun n hends u row hrow => ?_, fun n => ?_, fun d => ?_⟩
  · exact stable_account_once lower mac query dbs hends (fun i hi => (hrow i hi).1)
      (fun i hi => (hrow i hi).2.1) fun i hi => (hrow i hi).2.2
  · rw [pages_eq, List.pairwise_map]
    exact (Keyset.returned_strict hdistinct n).1.imp fun hlt => (sortKey_lt mac query.sort _ _).mp hlt
  · obtain ⟨hends, hreturned⟩ :=
      Keyset.returned_static query.limit_pos (table_distinct lower query query.sort d)
    refine ⟨_, (walkEnds_iff lower mac query (fun _ => d) _).mpr hends, ?_⟩
    have htable : table lower query d = d.customerAccount.rows.filter fun row => Matches lower query row :=
      List.filter_congr fun row _ => Bool.eq_iff_iff.mpr ((filters_iff query row).trans decide_eq_true_iff.symm)
    rw [pages_eq, hreturned, ← htable]
    exact (orderBy_perm _ _).map _

end
end Statement.Read
