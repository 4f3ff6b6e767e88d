import Mathlib

/-! Lexicographic order with a direction at each place.

A value under a direction is an element of `Directed`, where descending values
are compared the other way round. Lists of equal length compare at the first place
where they differ. -/
namespace Statement.Foundation

abbrev Directed (ν : Type) := ν ⊕ₗ νᵒᵈ

def directed {ν : Type} (descending : Bool) (v : ν) : Directed ν :=
  if descending then toLex (.inr (OrderDual.toDual v)) else toLex (.inl v)

section
variable {ν : Type}

theorem directed_inj {descending : Bool} {v w : ν} :
    directed descending v = directed descending w ↔ v = w := by
  cases descending <;> simp [directed]

theorem directed_lt [LinearOrder ν] {descending : Bool} {v w : ν} :
    directed descending v < directed descending w ↔ if descending then w < v else v < w := by
  cases descending <;> simp [directed]

end

/-- One list is before another of its length if it is at the first difference. -/
theorem lt_iff_take {α : Type} [LinearOrder α] {l m : List α} (h : l.length = m.length) :
    l < m ↔ ∃ i a b, l[i]? = some a ∧ m[i]? = some b ∧ l.take i = m.take i ∧ a < b := by
  induction l generalizing m with
  | nil =>
    obtain rfl : m = [] := List.length_eq_zero_iff.mp h.symm
    simp
  | cons x l ih =>
    obtain ⟨y, m, rfl⟩ := List.exists_cons_of_length_eq_add_one h.symm
    rw [List.cons_lt_cons_iff, ih (Nat.succ.inj h)]
    constructor
    · rintro (hlt | ⟨rfl, i, a, b, ha, hb, htake, hlt⟩)
      · exact ⟨0, x, y, rfl, rfl, rfl, hlt⟩
      · exact ⟨i + 1, a, b, ha, hb, by rw [List.take_succ_cons, List.take_succ_cons, htake], hlt⟩
    · rintro ⟨i, a, b, ha, hb, htake, hlt⟩
      cases i with
      | zero =>
        cases ha
        cases hb
        exact .inl hlt
      | succ i =>
        rw [List.take_succ_cons, List.take_succ_cons, List.cons.injEq] at htake
        exact .inr ⟨htake.1, i, a, b, ha, hb, htake.2, hlt⟩

/-! ### Tuples -/

/-- `w` comes strictly after `v`: at the first place where they differ, by the
direction of the place. -/
def ComesAfter {ν : Type} [LT ν] : List Bool → List ν → List ν → Prop
  | descending :: ds, v :: vs, w :: ws =>
    (if descending then w < v else v < w) ∨ (v = w ∧ ComesAfter ds vs ws)
  | _, _, _ => False

section
variable {ν : Type} {ds : List Bool} {u v w : List ν}

theorem zipWith_directed_inj (hv : v.length = ds.length) (hw : w.length = ds.length)
    (h : List.zipWith directed ds v = List.zipWith directed ds w) : v = w := by
  induction ds generalizing v w with
  | nil => rw [List.length_eq_zero_iff.mp hv, List.length_eq_zero_iff.mp hw]
  | cons descending ds ih =>
    obtain ⟨x, v, rfl⟩ := List.exists_cons_of_length_eq_add_one hv
    obtain ⟨y, w, rfl⟩ := List.exists_cons_of_length_eq_add_one hw
    rw [List.zipWith_cons_cons, List.zipWith_cons_cons, List.cons.injEq, directed_inj] at h
    rw [h.1, ih (Nat.succ.inj hv) (Nat.succ.inj hw) h.2]

variable [LinearOrder ν]

/-- Under its directions, a tuple is an element of the lexicographic order. -/
theorem comesAfter_iff (hv : v.length = ds.length) (hw : w.length = ds.length) :
    ComesAfter ds v w ↔ List.zipWith directed ds v < List.zipWith directed ds w := by
  induction ds generalizing v w with
  | nil =>
    obtain rfl : v = [] := List.length_eq_zero_iff.mp hv
    simp [ComesAfter]
  | cons descending ds ih =>
    obtain ⟨x, v, rfl⟩ := List.exists_cons_of_length_eq_add_one hv
    obtain ⟨y, w, rfl⟩ := List.exists_cons_of_length_eq_add_one hw
    rw [ComesAfter, ih (Nat.succ.inj hv) (Nat.succ.inj hw), List.zipWith_cons_cons, List.zipWith_cons_cons,
      List.cons_lt_cons_iff, directed_lt, directed_inj]

theorem ComesAfter.irrefl (hv : v.length = ds.length) : ¬ ComesAfter ds v v := by
  rw [comesAfter_iff hv hv]
  exact lt_irrefl _

theorem ComesAfter.trans (hu : u.length = ds.length) (hv : v.length = ds.length)
    (hw : w.length = ds.length) (huv : ComesAfter ds u v) (hvw : ComesAfter ds v w) :
    ComesAfter ds u w := by
  rw [comesAfter_iff hu hv] at huv
  rw [comesAfter_iff hv hw] at hvw
  exact (comesAfter_iff hu hw).mpr (huv.trans hvw)

/-- Of two tuples that differ, exactly one comes after the other. -/
theorem ComesAfter.xor (hv : v.length = ds.length) (hw : w.length = ds.length) (hne : v ≠ w) :
    (ComesAfter ds v w ∧ ¬ ComesAfter ds w v) ∨ (ComesAfter ds w v ∧ ¬ ComesAfter ds v w) := by
  rw [comesAfter_iff hv hw, comesAfter_iff hw hv]
  rcases lt_trichotomy (List.zipWith directed ds v) (List.zipWith directed ds w) with h | h | h
  · exact .inl ⟨h, h.asymm⟩
  · exact absurd (zipWith_directed_inj hv hw h) hne
  · exact .inr ⟨h, h.asymm⟩

end

end Statement.Foundation
