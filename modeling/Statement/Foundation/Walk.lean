import Mathlib

/-! Walking a list, each element checked against what the walk has reached.

A walk stops at the first element whose check fails and reports it with the
position before it. What a walk finds does not depend on where it is cut: the
part before a cut either stops the walk or hands its last position to the part
after it (`walk_append`). -/
namespace Statement.Foundation

inductive Walk (σ α κ : Type) where
  | clean (last : σ)
  | broken (previous : σ) (at_ : α) (kind : κ)
  deriving DecidableEq

variable {σ α κ : Type}

/-- The last position that held. -/
def Walk.reached : Walk σ α κ → σ
  | .clean last => last
  | .broken previous _ _ => previous

def walk (check : σ → α → Option κ) (position : α → σ) : σ → List α → Walk σ α κ
  | s, [] => .clean s
  | s, a :: l =>
    match check s a with
    | some k => .broken s a k
    | none => walk check position (position a) l

variable {check : σ → α → Option κ} {position : α → σ}

theorem walk_cons_ok {s : σ} {a : α} (l : List α) (h : check s a = none) :
    walk check position s (a :: l) = walk check position (position a) l := by
  simp only [walk, h]

theorem walk_cons_broken {s : σ} {a : α} {k : κ} (l : List α) (h : check s a = some k) :
    walk check position s (a :: l) = .broken s a k := by
  simp only [walk, h]

theorem walk_append (s : σ) (l m : List α) :
    walk check position s (l ++ m) =
      match walk check position s l with
      | .clean last => walk check position last m
      | .broken previous a k => .broken previous a k := by
  induction l generalizing s with
  | nil => rfl
  | cons a l ih =>
    cases hc : check s a with
    | none => rw [List.cons_append, walk_cons_ok _ hc, walk_cons_ok _ hc, ih]
    | some k => rw [List.cons_append, walk_cons_broken _ hc, walk_cons_broken _ hc]

/-- A walk that meets no break ends at its last element. -/
theorem walk_clean_last {s last : σ} {l : List α} (h : walk check position s l = .clean last) :
    last = (l.getLast?.map position).getD s := by
  induction l generalizing s with
  | nil =>
    cases h
    rfl
  | cons a l ih =>
    cases hc : check s a with
    | none =>
      rw [walk_cons_ok _ hc] at h
      rw [ih h, List.getLast?_cons]
      cases l.getLast? <;> rfl
    | some k =>
      rw [walk_cons_broken _ hc] at h
      cases h

/-- A break is the first element that fails, after a prefix that holds. -/
theorem walk_broken {s previous : σ} {a : α} {k : κ} {l : List α}
    (h : walk check position s l = .broken previous a k) :
    ∃ pre post, l = pre ++ a :: post ∧ walk check position s pre = .clean previous ∧
      check previous a = some k := by
  induction l generalizing s with
  | nil => cases h
  | cons b l ih =>
    cases hc : check s b with
    | none =>
      rw [walk_cons_ok _ hc] at h
      obtain ⟨pre, post, rfl, hpre, hk⟩ := ih h
      exact ⟨b :: pre, post, rfl, by rw [walk_cons_ok _ hc, hpre], hk⟩
    | some k' =>
      rw [walk_cons_broken _ hc] at h
      cases h
      exact ⟨[], l, rfl, rfl, hc⟩

/-- A walk never gets further than its elements. -/
theorem walk_reached (s : σ) (l : List α) :
    (walk check position s l).reached = s ∨ ∃ a ∈ l, (walk check position s l).reached = position a := by
  induction l generalizing s with
  | nil => exact .inl rfl
  | cons b l ih =>
    cases hc : check s b with
    | some k =>
      rw [walk_cons_broken _ hc]
      exact .inl rfl
    | none =>
      rw [walk_cons_ok _ hc]
      rcases ih (position b) with he | ⟨a, ha, he⟩
      · exact .inr ⟨b, List.mem_cons_self, he⟩
      · exact .inr ⟨a, List.mem_cons_of_mem b ha, he⟩

/-- Each element after a clean start is checked against the one before it. -/
theorem walk_clean_iff {s : σ} {l : List α} :
    (∃ last, walk check position s l = .clean last) ↔
      ∀ pre a post, l = pre ++ a :: post →
        check ((pre.getLast?.map position).getD s) a = none := by
  induction l generalizing s with
  | nil => simp [walk]
  | cons b l ih =>
    constructor
    · rintro ⟨last, h⟩ pre a post hl
      cases hc : check s b with
      | some k =>
        rw [walk_cons_broken _ hc] at h
        cases h
      | none =>
        rw [walk_cons_ok _ hc] at h
        cases pre with
        | nil =>
          cases hl
          exact hc
        | cons c pre =>
          cases hl
          have := ih.mp ⟨last, h⟩ pre a post rfl
          rw [List.getLast?_cons]
          cases hp : pre.getLast? <;> simpa [hp] using this
    · intro h
      have hc : check s b = none := h [] b l rfl
      rw [walk_cons_ok _ hc]
      refine ih.mpr fun pre a post hl => ?_
      have := h (b :: pre) a post (by rw [hl]; rfl)
      rw [List.getLast?_cons] at this
      cases hp : pre.getLast? <;> simpa [hp] using this

end Statement.Foundation
