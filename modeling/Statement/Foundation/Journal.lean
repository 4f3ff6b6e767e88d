import Mathlib

/-! Journals: numbered rows with a running total.

A row has a number, an amount and a balance. A journal starts with number one,
and every further row has the next number and adds its amount to the balance. So
the numbers are dense, and a balance is the sum of the amounts so far. -/
namespace Statement.Foundation

variable {α : Type} (no amount balance : α → Int)

/-- `r` is the row after `q`. -/
def Succeeds (q r : α) : Prop := no r = no q + 1 ∧ balance r = balance q + amount r

structure Journal (rows : List α) : Prop where
  first : ∃ r, rows.head? = some r ∧ no r = 1 ∧ balance r = amount r
  chain : rows.IsChain (Succeeds no amount balance)

namespace Journal
variable {no amount balance} {rows : List α}

theorem singleton {r : α} (hn : no r = 1) (hb : balance r = amount r) :
    Journal no amount balance [r] :=
  ⟨⟨r, rfl, hn, hb⟩, .singleton r⟩

/-- A journal grows by the row after its last one. -/
theorem append (h : Journal no amount balance rows) {last r : α} (hl : rows.getLast? = some last)
    (hr : Succeeds no amount balance last r) : Journal no amount balance (rows ++ [r]) := by
  obtain ⟨r₀, h₀, hfirst⟩ := h.first
  refine ⟨⟨r₀, by rw [List.head?_append, h₀]; rfl, hfirst⟩, h.chain.append (.singleton r) ?_⟩
  intro q hq s hs
  rw [hl] at hq
  cases hq
  cases hs
  exact hr

theorem ne_nil (h : Journal no amount balance rows) : rows ≠ [] := by
  obtain ⟨r, hr, _⟩ := h.first
  rintro rfl
  cases hr

/-- A row's number is its place, and its balance the sum of the amounts up to it. -/
theorem at_place (h : Journal no amount balance rows) {pre post : List α} {r : α}
    (hr : rows = pre ++ r :: post) :
    no r = pre.length + 1 ∧ balance r = ((pre ++ [r]).map amount).sum := by
  induction pre using List.reverseRecOn generalizing r post with
  | nil =>
    obtain ⟨q, hq, hno, hb⟩ := h.first
    rw [hr] at hq
    cases hq
    simpa using ⟨hno, hb⟩
  | append_singleton pre q ih =>
    rw [List.append_assoc] at hr
    obtain ⟨hno, hb⟩ := ih hr
    obtain ⟨hno', hb'⟩ := (List.isChain_append_cons_cons.mp (hr ▸ h.chain)).2.1
    refine ⟨by simp [hno', hno], ?_⟩
    rw [List.map_append, List.sum_append, ← hb, hb']
    simp

/-- The first rows have the first numbers. -/
theorem no_prefix (h : Journal no amount balance rows) {pre post : List α} (hr : rows = pre ++ post) :
    (∀ r ∈ pre, no r ≤ pre.length) ∧ ∀ r ∈ post, pre.length < no r := by
  refine ⟨fun r hm => ?_, fun r hm => ?_⟩
  · obtain ⟨init, mid, rfl⟩ := List.append_of_mem hm
    have := (h.at_place (hr.trans (List.append_assoc init (r :: mid) post))).1
    simp only [List.length_append, List.length_cons]
    omega
  · obtain ⟨mid, tail, rfl⟩ := List.append_of_mem hm
    have := (h.at_place (hr.trans (List.append_assoc pre mid (r :: tail)).symm)).1
    simp only [List.length_append] at this
    omega

/-- The rows from one place to another, by their numbers. -/
theorem filter_between (h : Journal no amount balance rows) {pre mid post : List α} {r : α} {first : Int}
    (hr : rows = pre ++ mid ++ r :: post) (hfirst : first = pre.length + 1) :
    rows.filter (fun q => first ≤ no q ∧ no q < no r) = mid := by
  have hno := (h.at_place hr).1
  obtain ⟨hbefore, hafter⟩ := h.no_prefix hr
  obtain ⟨hpre, hlater⟩ := h.no_prefix (hr.trans (List.append_assoc pre mid (r :: post)))
  rw [hr, List.filter_append, List.filter_append, List.filter_eq_nil_iff.mpr, List.nil_append,
    List.filter_eq_self.mpr, List.filter_eq_nil_iff.mpr, List.append_nil]
  · intro q hq
    have := hafter q hq
    simpa using fun _ => (by omega : no r ≤ no q)
  · intro q hq
    have := hbefore q (List.mem_append_right pre hq)
    have := hlater q (List.mem_append_left _ hq)
    simpa using (by omega : first ≤ no q ∧ no q < no r)
  · intro q hq
    have := hpre q hq
    simpa using fun hle => absurd hle (by omega)

/-- The numbers are exactly `1` to the number of rows, in order. -/
theorem map_no (h : Journal no amount balance rows) :
    rows.map no = (List.range rows.length).map fun k : Nat => (k : Int) + 1 := by
  refine List.ext_getElem (by simp) fun k h₁ h₂ => ?_
  have hk : k < rows.length := by simpa using h₁
  have hsplit : rows = rows.take k ++ rows[k] :: rows.drop (k + 1) := by
    rw [List.cons_getElem_drop_succ, List.take_append_drop]
  have := (h.at_place hsplit).1
  simp only [List.length_take, min_eq_left hk.le] at this
  simpa using this

/-- Numbers grow along the rows. -/
theorem sorted (h : Journal no amount balance rows) : rows.Pairwise fun q r => no q < no r := by
  rw [← List.pairwise_map (R := (· < ·)), h.map_no, List.pairwise_map]
  exact List.pairwise_lt_range.imp fun hlt => by omega

theorem one_le (h : Journal no amount balance rows) {r : α} (hr : r ∈ rows) : 1 ≤ no r := by
  obtain ⟨pre, post, he⟩ := List.append_of_mem hr
  have := (h.at_place he).1
  omega

theorem no_le_last (h : Journal no amount balance rows) {last r : α} (hl : rows.getLast? = some last)
    (hr : r ∈ rows) : no r ≤ no last := by
  obtain ⟨pre, rfl⟩ := List.getLast?_eq_some_iff.mp hl
  rcases List.mem_append.mp hr with hr | hr
  · exact le_of_lt ((List.pairwise_append.mp h.sorted).2.2 r hr last (List.mem_singleton.mpr rfl))
  · rw [List.mem_singleton.mp hr]

/-- No number is missing below a row's. -/
theorem exists_no (h : Journal no amount balance rows) {r : α} (hr : r ∈ rows) {n : Int} (h₁ : 1 ≤ n)
    (h₂ : n ≤ no r) : ∃ q ∈ rows, no q = n := by
  obtain ⟨pre, post, he⟩ := List.append_of_mem hr
  have hlen : no r ≤ rows.length := by
    have := (h.at_place he).1
    have : rows.length = pre.length + (post.length + 1) := by simp [he]
    omega
  have hmem : n ∈ rows.map no := by
    rw [h.map_no, List.mem_map]
    exact ⟨(n - 1).toNat, List.mem_range.mpr (by omega), by omega⟩
  simpa using hmem

/-- Two rows of one number are one row. -/
theorem no_injective (h : Journal no amount balance rows) {q r : α} (hq : q ∈ rows) (hr : r ∈ rows)
    (he : no q = no r) : q = r := by
  have hne : rows.Pairwise fun q r => no q ≠ no r := h.sorted.imp fun hlt => ne_of_lt hlt
  have : Std.Symm fun q r => no q ≠ no r := ⟨fun _ _ => Ne.symm⟩
  by_contra hqr
  exact hne.forall hq hr hqr he

/-- What a journal started with is all it has up to there. -/
theorem mem_of_prefix (h : Journal no amount balance rows) {start : List α} (hp : start <+: rows)
    {q r : α} (hq : q ∈ start) (hr : r ∈ rows) (hle : no r ≤ no q) : r ∈ start := by
  obtain ⟨rest, rfl⟩ := hp
  rcases List.mem_append.mp hr with hr | hr
  · exact hr
  · have := (List.pairwise_append.mp h.sorted).2.2 q hq r hr
    omega

/-- A balance is the one before it plus the row's amount. -/
theorem balance_succ (h : Journal no amount balance rows) {q r : α} (hq : q ∈ rows) (hr : r ∈ rows)
    (he : no r = no q + 1) : balance r = balance q + amount r := by
  obtain ⟨pre, post, hs⟩ := List.append_of_mem hr
  rcases List.eq_nil_or_concat pre with rfl | ⟨pre, x, rfl⟩
  · have h₁ := (h.at_place hs).1
    have h₂ := h.one_le hq
    simp only [List.length_nil] at h₁
    omega
  · rw [List.concat_eq_append, List.append_assoc] at hs
    obtain ⟨hno, hb⟩ := (List.isChain_append_cons_cons.mp (hs ▸ h.chain)).2.1
    have hx : x = q := h.no_injective (hs ▸ by simp) hq (by omega)
    rw [← hx, hb]

/-- A balance is the sum of the amounts of the rows up to its own. -/
theorem balance_eq_sum (h : Journal no amount balance rows) {r : α} (hr : r ∈ rows) :
    balance r = ((rows.filter (no · ≤ no r)).map amount).sum := by
  obtain ⟨pre, post, hs⟩ := List.append_of_mem hr
  have hfilter : rows.filter (no · ≤ no r) = pre ++ [r] := by
    have hsorted := h.sorted
    rw [hs] at hsorted ⊢
    obtain ⟨_, hrest, hpre⟩ := List.pairwise_append.mp hsorted
    rw [List.filter_append, List.filter_cons, if_pos (by simp), List.filter_eq_self.mpr,
      List.filter_eq_nil_iff.mpr]
    · intro q hq
      simpa using (List.pairwise_cons.mp hrest).1 q hq
    · intro q hq
      simpa using le_of_lt (hpre q hq r List.mem_cons_self)
  rw [(h.at_place hs).2, hfilter]

/-- The last balance is the sum of all amounts. -/
theorem last_balance (h : Journal no amount balance rows) {last : α}
    (hl : rows.getLast? = some last) : balance last = (rows.map amount).sum := by
  obtain ⟨pre, rfl⟩ := List.getLast?_eq_some_iff.mp hl
  exact (h.at_place rfl).2

end Journal
end Statement.Foundation
