import Statement.Foundation.Query

/-! Keyset pagination.

A client reads a table page by page. A page holds the first `limit` rows in the
order of a key among those past a cursor, and a full page gives the key of its
last row as the cursor of the next one. Between two pages the table may become
any other. What is returned is in order all the same (`returned_strict`), and a
key that every page finds in its table is returned (`stable_returned`); on a table
that stays as it is, the pages are the table in order, and there are finitely many
(`returned_static`). -/
namespace Statement.Foundation.Keyset
variable {ρ κ : Type} [LinearOrder κ]

/-- Is a key past the cursor? Without a cursor every key is. -/
def past (cursor : Option κ) (k : κ) : Bool :=
  match cursor with
  | none => true
  | some c => c < k

def page (key : ρ → κ) (limit : Nat) (cursor : Option κ) (rows : List ρ) : List ρ :=
  (orderBy key (rows.filter fun r => past cursor (key r))).take limit

/-- The cursor that a full page gives. -/
def next (key : ρ → κ) (limit : Nat) (p : List ρ) : Option κ :=
  if p.length = limit then p.getLast?.map key else none

/-- The `n`-th page, when the `i`-th request finds `tables i`; `none` when the walk
has ended before. -/
def pageAt (key : ρ → κ) (limit : Nat) (tables : Nat → List ρ) : Nat → Option (List ρ)
  | 0 => some (page key limit none (tables 0))
  | n + 1 => do
    let p ← pageAt key limit tables n
    let c ← next key limit p
    some (page key limit (some c) (tables (n + 1)))

/-- The walk ends with the `n`-th page. -/
def Ends (key : ρ → κ) (limit : Nat) (tables : Nat → List ρ) (n : Nat) : Prop :=
  ∃ p, pageAt key limit tables n = some p ∧ next key limit p = none

/-- What the pages up to the `n`-th have returned. -/
def returned (key : ρ → κ) (limit : Nat) (tables : Nat → List ρ) (n : Nat) : List ρ :=
  (List.range (n + 1)).flatMap fun i => (pageAt key limit tables i).getD []

variable {key : ρ → κ} {limit : Nat}

/-! ### One page -/

@[simp] theorem past_some (c k : κ) : past (some c) k = decide (c < k) := rfl

theorem page_none (rows : List ρ) : page key limit none rows = (orderBy key rows).take limit := by
  have hall : rows.filter (fun r => past none (key r)) = rows := List.filter_eq_self.mpr fun _ _ => rfl
  rw [page, hall]

theorem mem_page {cursor : Option κ} {rows : List ρ} {r : ρ} (h : r ∈ page key limit cursor rows) :
    r ∈ rows ∧ past cursor (key r) = true :=
  List.mem_filter.mp (mem_orderBy.mp (List.mem_of_mem_take h))

theorem page_strict {rows : List ρ} (h : rows.Pairwise fun a b => key a ≠ key b) (cursor : Option κ) :
    (page key limit cursor rows).Pairwise fun a b => key a < key b :=
  (orderBy_strict (h.filter _)).take

/-- In order, the rows of a page end with its cursor. -/
theorem le_next {p : List ρ} (hp : p.Pairwise fun a b => key a < key b) {c : κ}
    (hc : next key limit p = some c) : ∀ r ∈ p, key r ≤ c := by
  intro r hr
  simp only [next] at hc
  split at hc
  · obtain ⟨last, hlast, rfl⟩ := Option.map_eq_some_iff.mp hc
    obtain ⟨init, hinit⟩ := List.getLast?_eq_some_iff.mp hlast
    rw [hinit] at hp hr
    rcases List.mem_append.mp hr with hr | hr
    · exact ((List.pairwise_append.mp hp).2.2 r hr last (List.mem_singleton.mpr rfl)).le
    · rw [List.mem_singleton.mp hr]
  · cases hc

/-- A row past the cursor is on the page, or past the cursor that the page gives. -/
theorem page_covers (hlimit : 0 < limit) {rows : List ρ} (h : rows.Pairwise fun a b => key a ≠ key b)
    {cursor : Option κ} {r : ρ} (hr : r ∈ rows) (hpast : past cursor (key r) = true) :
    r ∈ page key limit cursor rows ∨
      ∃ c, next key limit (page key limit cursor rows) = some c ∧ c < key r := by
  set sorted := orderBy key (rows.filter fun r => past cursor (key r)) with hsorted
  have hmem : r ∈ sorted.take limit ++ sorted.drop limit := by
    rw [List.take_append_drop]
    exact mem_orderBy.mpr (List.mem_filter.mpr ⟨hr, hpast⟩)
  have hstrict : sorted.Pairwise fun a b => key a < key b := orderBy_strict (h.filter _)
  rw [← List.take_append_drop limit sorted] at hstrict
  rcases List.mem_append.mp hmem with hin | hout
  · exact .inl hin
  · refine .inr ?_
    have hlength : (sorted.take limit).length = limit := by
      have hpos := List.length_pos_of_mem hout
      rw [List.length_drop] at hpos
      rw [List.length_take]
      omega
    have hne : sorted.take limit ≠ [] := by
      rw [← List.length_pos_iff, hlength]
      exact hlimit
    refine ⟨key ((sorted.take limit).getLast hne), ?_, ?_⟩
    · rw [page, ← hsorted, next, if_pos hlength, List.getLast?_eq_some_getLast hne, Option.map_some]
    · exact (List.pairwise_append.mp hstrict).2.2 _ (List.getLast_mem hne) r hout

/-! ### A walk over tables that change -/

section
variable {tables : Nat → List ρ}

theorem pageAt_succ {n : Nat} {p : List ρ} :
    pageAt key limit tables (n + 1) = some p ↔ ∃ q c, pageAt key limit tables n = some q ∧
      next key limit q = some c ∧ p = page key limit (some c) (tables (n + 1)) := by
  simp only [pageAt, Option.bind_eq_bind, Option.bind_eq_some_iff, Option.some.injEq]
  constructor
  · rintro ⟨q, hq, c, hc, rfl⟩
    exact ⟨q, c, hq, hc, rfl⟩
  · rintro ⟨q, c, hq, hc, rfl⟩
    exact ⟨q, hq, c, hc, rfl⟩

theorem returned_succ (n : Nat) : returned key limit tables (n + 1) =
    returned key limit tables n ++ (pageAt key limit tables (n + 1)).getD [] := by
  rw [returned, List.range_succ, List.flatMap_append]
  simp [returned]

theorem returned_zero : returned key limit tables 0 = page key limit none (tables 0) := by
  simp [returned, pageAt]

/-- What is returned comes in order, and ends with the cursor. -/
theorem returned_strict (h : ∀ i, (tables i).Pairwise fun a b => key a ≠ key b) (n : Nat) :
    (returned key limit tables n).Pairwise (fun a b => key a < key b) ∧
      ∀ p c, pageAt key limit tables n = some p → next key limit p = some c →
        ∀ r ∈ returned key limit tables n, key r ≤ c := by
  induction n with
  | zero =>
    rw [returned_zero]
    refine ⟨page_strict (h 0) none, fun p c hp hc => ?_⟩
    cases hp
    exact le_next (page_strict (h 0) none) hc
  | succ n ih =>
    obtain ⟨hstrict, hle⟩ := ih
    rw [returned_succ]
    cases hn : pageAt key limit tables (n + 1) with
    | none => exact ⟨by simpa using hstrict, fun p c hp => nomatch hp⟩
    | some p =>
      obtain ⟨q, c, hq, hc, rfl⟩ := pageAt_succ.mp hn
      have hpage : (page key limit (some c) (tables (n + 1))).Pairwise fun a b => key a < key b :=
        page_strict (h (n + 1)) (some c)
      have hacross : ∀ a ∈ returned key limit tables n,
          ∀ b ∈ page key limit (some c) (tables (n + 1)), key a < key b := fun a ha b hb =>
        (hle q c hq hc a ha).trans_lt (of_decide_eq_true (mem_page hb).2)
      refine ⟨List.pairwise_append.mpr ⟨hstrict, hpage, hacross⟩, fun p' c' hp' hc' r hr => ?_⟩
      cases hp'
      have hc'le := le_next hpage hc'
      rcases List.mem_append.mp hr with hr | hr
      · -- a page that gives a cursor has a last row, and what came before is behind it
        obtain ⟨b, hb⟩ : ∃ b, b ∈ page key limit (some c) (tables (n + 1)) := by
          simp only [next] at hc'
          split at hc'
          · obtain ⟨last, hlast, _⟩ := Option.map_eq_some_iff.mp hc'
            exact ⟨last, List.mem_of_getLast? hlast⟩
          · cases hc'
        exact (hacross r hr b hb).le.trans (hc'le b hb)
      · exact hc'le r hr

/-- A key that every table has is returned, or is still to come. -/
theorem stable_returned (hlimit : 0 < limit) (h : ∀ i, (tables i).Pairwise fun a b => key a ≠ key b)
    {k : κ} {n : Nat} (hk : ∀ i ≤ n, ∃ r ∈ tables i, key r = k) {p : List ρ}
    (hp : pageAt key limit tables n = some p) :
    (∃ r ∈ returned key limit tables n, key r = k) ∨ ∃ c, next key limit p = some c ∧ c < k := by
  induction n generalizing p with
  | zero =>
    cases hp
    obtain ⟨r, hr, rfl⟩ := hk 0 le_rfl
    rw [returned_zero]
    exact (page_covers hlimit (h 0) hr rfl).imp (fun hin => ⟨r, hin, rfl⟩) id
  | succ n ih =>
    rw [returned_succ, hp]
    obtain ⟨q, c, hq, hc, rfl⟩ := pageAt_succ.mp hp
    rcases ih (fun i hi => hk i (Nat.le_succ_of_le hi)) hq with ⟨r, hr, hrk⟩ | ⟨c', hc', hlt⟩
    · exact .inl ⟨r, List.mem_append_left _ hr, hrk⟩
    · obtain rfl : c = c' := Option.some.inj (hc.symm.trans hc')
      obtain ⟨r, hr, rfl⟩ := hk (n + 1) le_rfl
      have hpast : past (some c) (key r) = true := decide_eq_true hlt
      exact (page_covers hlimit (h (n + 1)) hr hpast).imp
        (fun hin => ⟨r, List.mem_append_right _ hin, rfl⟩) id

/-- What is returned stood in the table that its page was read from. -/
theorem mem_returned {n : Nat} {r : ρ} (hr : r ∈ returned key limit tables n) :
    ∃ i ≤ n, r ∈ tables i := by
  obtain ⟨i, hi, hpage⟩ := List.mem_flatMap.mp hr
  have hle : i ≤ n := Nat.lt_succ_iff.mp (List.mem_range.mp hi)
  cases i with
  | zero => exact ⟨0, hle, (mem_page hpage).1⟩
  | succ i =>
    cases hp : pageAt key limit tables (i + 1) with
    | none =>
      rw [hp] at hpage
      cases hpage
    | some p =>
      rw [hp] at hpage
      obtain ⟨_, c, _, _, rfl⟩ := pageAt_succ.mp hp
      exact ⟨i + 1, hle, (mem_page hpage).1⟩

/-- **A key that every table has is returned once** by a walk that ends. -/
theorem stable_once (hlimit : 0 < limit) (h : ∀ i, (tables i).Pairwise fun a b => key a ≠ key b)
    {k : κ} {n : Nat} (hk : ∀ i ≤ n, ∃ r ∈ tables i, key r = k) (hends : Ends key limit tables n) :
    (returned key limit tables n).countP (fun r => key r = k) = 1 := by
  have hsome : ∃ r ∈ returned key limit tables n, key r = k := by
    obtain ⟨p, hp, hnone⟩ := hends
    cases stable_returned hlimit h hk hp with
    | inl hreturned => exact hreturned
    | inr hbehind =>
      obtain ⟨c, hc, _⟩ := hbehind
      rw [hnone] at hc
      cases hc
  have hreturned : (returned key limit tables n).Pairwise fun a b => key a < key b := (returned_strict h n).1
  have hstrict := hreturned.filter fun r => key r = k
  rw [List.countP_eq_length_filter]
  cases hfilter : (returned key limit tables n).filter fun r => key r = k with
  | nil =>
    obtain ⟨r, hr, hrk⟩ := hsome
    exact absurd (decide_eq_true hrk) (List.filter_eq_nil_iff.mp hfilter r hr)
  | cons a rest =>
    cases rest with
    | nil => rfl
    | cons b rest =>
      have hkey : ∀ r ∈ a :: b :: rest, key r = k := by
        intro r hr
        rw [← hfilter] at hr
        simpa using (List.mem_filter.mp hr).2
      rw [hfilter] at hstrict
      have hlt := (List.pairwise_cons.mp hstrict).1 b List.mem_cons_self
      rw [hkey a List.mem_cons_self, hkey b (by simp)] at hlt
      exact absurd hlt (lt_irrefl k)

end

/-! ### A table that stays -/

/-- Past the last row of a beginning lies the rest. -/
theorem filter_past_append {a b : List ρ} {last : ρ} (h : (a ++ b).Pairwise fun x y => key x < key y)
    (hlast : a.getLast? = some last) : (a ++ b).filter (fun r => past (some (key last)) (key r)) = b := by
  obtain ⟨ha, hb, hab⟩ := List.pairwise_append.mp h
  obtain ⟨init, rfl⟩ := List.getLast?_eq_some_iff.mp hlast
  have hbehind : ∀ r ∈ init ++ [last], ¬ key last < key r := by
    intro r hr
    rcases List.mem_append.mp hr with hr | hr
    · exact not_lt.mpr ((List.pairwise_append.mp ha).2.2 r hr last (List.mem_singleton.mpr rfl)).le
    · rw [List.mem_singleton.mp hr]
      exact lt_irrefl _
  rw [List.filter_append, List.filter_eq_nil_iff.mpr fun r hr => by simpa [past] using hbehind r hr,
    List.nil_append, List.filter_eq_self.mpr fun r hr => ?_]
  exact decide_eq_true (hab last (by simp) r hr)

/-- A page that starts behind a row of the table is what follows that row. -/
theorem page_static {rows a b : List ρ} {last : ρ} (h : rows.Pairwise fun x y => key x ≠ key y)
    (hsorted : orderBy key rows = a ++ b) (hlast : a.getLast? = some last) :
    page key limit (some (key last)) rows = b.take limit := by
  have hstrict : (a ++ b).Pairwise fun x y => key x < key y := hsorted ▸ orderBy_strict h
  rw [page, ← orderBy_filter, hsorted, filter_past_append hstrict hlast]

theorem pageAt_static (hlimit : 0 < limit) {rows : List ρ} (h : rows.Pairwise fun a b => key a ≠ key b)
    (n : Nat) (hn : n * limit ≤ rows.length) : pageAt key limit (fun _ => rows) n =
      some (((orderBy key rows).drop (n * limit)).take limit) := by
  induction n with
  | zero =>
    rw [pageAt, page_none, Nat.zero_mul, List.drop_zero]
  | succ n ih =>
    have hn' : (n + 1) * limit = n * limit + limit := Nat.succ_mul n limit
    set s := orderBy key rows with hs
    have hlength : s.length = rows.length := length_orderBy key rows
    have hfull : ((s.drop (n * limit)).take limit).length = limit := by
      rw [List.length_take, List.length_drop]
      omega
    have hne : (s.drop (n * limit)).take limit ≠ [] := by
      rw [← List.length_pos_iff, hfull]
      exact hlimit
    set last := ((s.drop (n * limit)).take limit).getLast hne
    have hlast : (s.take (n * limit) ++ (s.drop (n * limit)).take limit).getLast? = some last := by
      rw [List.getLast?_append_of_ne_nil _ hne, List.getLast?_eq_some_getLast hne]
    have hsplit : s = (s.take (n * limit) ++ (s.drop (n * limit)).take limit) ++ s.drop ((n + 1) * limit) := by
      rw [← List.take_add, hn', List.take_append_drop]
    refine pageAt_succ.mpr ⟨_, key last, ih (by omega), ?_, (page_static h hsplit hlast).symm⟩
    rw [next, if_pos hfull, List.getLast?_eq_some_getLast hne, Option.map_some]

/-- **A table that stays** is returned in order, by finitely many pages. -/
theorem returned_static (hlimit : 0 < limit) {rows : List ρ} (h : rows.Pairwise fun a b => key a ≠ key b) :
    Ends key limit (fun _ => rows) (rows.length / limit) ∧
      returned key limit (fun _ => rows) (rows.length / limit) = orderBy key rows := by
  have hdiv : rows.length / limit * limit ≤ rows.length := Nat.div_mul_le_self _ _
  have hreturned : ∀ n, n * limit ≤ rows.length →
      returned key limit (fun _ => rows) n = (orderBy key rows).take ((n + 1) * limit) := by
    intro n
    induction n with
    | zero =>
      intro _
      rw [returned_zero, page_none, Nat.zero_add, Nat.one_mul]
    | succ n ih =>
      intro hn
      have hle : n * limit ≤ rows.length := (Nat.mul_le_mul_right limit n.le_succ).trans hn
      rw [returned_succ, ih hle, pageAt_static hlimit h (n + 1) hn, Option.getD_some, ← List.take_add,
        Nat.succ_mul (n + 1) limit]
  have hmod : rows.length < (rows.length / limit + 1) * limit := by
    rw [Nat.add_mul, Nat.one_mul]
    exact Nat.lt_div_mul_add hlimit
  constructor
  · refine ⟨_, pageAt_static hlimit h _ hdiv, if_neg ?_⟩
    rw [List.length_take, List.length_drop, length_orderBy]
    rw [Nat.add_mul, Nat.one_mul] at hmod
    omega
  · rw [hreturned _ hdiv, List.take_of_length_le]
    rw [length_orderBy]
    exact hmod.le

end Statement.Foundation.Keyset
