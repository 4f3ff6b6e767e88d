import Mathlib

/-! Tables with unique indexes.

A table is a list of rows no two of which `clash`. What clashes is a parameter:
equal primary keys, equal keys of another unique index, or of a partial one.
Uniqueness is a field, so no table breaks it; an insert either finds no clash or
fails, as a unique violation does, and `ON CONFLICT DO NOTHING` is the insert
that keeps the table when it would fail. -/
namespace Statement.Foundation

structure Table (α : Type) (clash : α → α → Prop) where
  rows : List α
  distinct : rows.Pairwise fun a b => ¬ clash a b

namespace Table
variable {α : Type} {clash : α → α → Prop}

theorem ext {s t : Table α clash} (h : s.rows = t.rows) : s = t := by
  cases s
  cases t
  cases h
  rfl

instance [DecidableEq α] : DecidableEq (Table α clash) := fun s t =>
  decidable_of_iff (s.rows = t.rows) ⟨ext, congrArg rows⟩

def empty : Table α clash := ⟨[], .nil⟩

def single (a : α) : Table α clash := ⟨[a], List.pairwise_singleton _ _⟩

theorem append_distinct (t : Table α clash) (a : α) (h : ∀ b ∈ t.rows, ¬ clash b a) :
    (t.rows ++ [a]).Pairwise fun a b => ¬ clash a b := by
  refine List.pairwise_append.mpr ⟨t.distinct, List.pairwise_singleton _ _, fun b hb c hc => ?_⟩
  cases List.mem_singleton.mp hc
  exact h b hb

/-- Two stored rows that clash are one row, when clashing is symmetric. -/
theorem eq_of_clash {t : Table α clash} (hs : ∀ a b, clash a b → clash b a) {a b : α}
    (ha : a ∈ t.rows) (hb : b ∈ t.rows) (h : clash a b) : a = b := by
  have : Std.Symm fun a b => ¬ clash a b := ⟨fun _ _ hxy hc => hxy (hs _ _ hc)⟩
  by_contra hne
  exact t.distinct.forall ha hb hne h

variable [DecidableRel clash]

/-- Some stored row already uses one of the new row's unique keys. -/
def conflicts (t : Table α clash) (a : α) : Prop := ∃ b ∈ t.rows, clash b a

instance (t : Table α clash) (a : α) : Decidable (t.conflicts a) :=
  inferInstanceAs (Decidable (∃ b ∈ t.rows, clash b a))

/-- `INSERT`: `none` is a unique violation. -/
def insert (t : Table α clash) (a : α) : Option (Table α clash) :=
  if h : t.conflicts a then none
  else some ⟨t.rows ++ [a], t.append_distinct a fun b hb hc => h ⟨b, hb, hc⟩⟩

/-- `INSERT … ON CONFLICT DO NOTHING`. -/
def insertOrIgnore (t : Table α clash) (a : α) : Table α clash := (t.insert a).getD t

theorem insert_of_free {t : Table α clash} {a : α} (h : ¬ t.conflicts a) :
    ∃ t', t.insert a = some t' ∧ t'.rows = t.rows ++ [a] := by
  refine ⟨⟨t.rows ++ [a], t.append_distinct a fun b hb hc => h ⟨b, hb, hc⟩⟩, ?_, rfl⟩
  simp [insert, h]

theorem insert_some {t t' : Table α clash} {a : α} (h : t.insert a = some t') :
    ¬ t.conflicts a ∧ t'.rows = t.rows ++ [a] := by
  unfold insert at h
  split at h
  · cases h
  · rename_i hc
    cases h
    exact ⟨hc, rfl⟩

/-- An ignored insert adds the row, unless a stored row clashes with it. -/
theorem insertOrIgnore_cases (t : Table α clash) (a : α) :
    (t.conflicts a ∧ t.insertOrIgnore a = t) ∨
      (¬ t.conflicts a ∧ (t.insertOrIgnore a).rows = t.rows ++ [a]) := by
  by_cases h : t.conflicts a
  · exact .inl ⟨h, by simp [insertOrIgnore, insert, h]⟩
  · obtain ⟨t', ht, hr⟩ := insert_of_free h
    exact .inr ⟨h, by simp [insertOrIgnore, ht, hr]⟩

theorem mem_insertOrIgnore {t : Table α clash} {a b : α} (h : b ∈ (t.insertOrIgnore a).rows) :
    b ∈ t.rows ∨ b = a := by
  rcases t.insertOrIgnore_cases a with ⟨_, hsame⟩ | ⟨_, hrows⟩
  · exact .inl (hsame ▸ h)
  · rw [hrows] at h
    exact (List.mem_append.mp h).imp_right List.mem_singleton.mp

/-- An insert adds nothing to the rows that the new one is not among. -/
theorem insertOrIgnore_filter (t : Table α clash) {a : α} {p : α → Bool} (h : p a = false) :
    (t.insertOrIgnore a).rows.filter p = t.rows.filter p := by
  rcases t.insertOrIgnore_cases a with ⟨_, hsame⟩ | ⟨_, hrows⟩
  · rw [hsame]
  · rw [hrows, List.filter_append, List.filter_cons, if_neg (by simp [h]), List.filter_nil, List.append_nil]

/-- Change rows in place by a function that merges no two keys. -/
def update (t : Table α clash) (f : α → α) (hf : ∀ a b, clash (f a) (f b) → clash a b) :
    Table α clash :=
  ⟨t.rows.map f, List.pairwise_map.mpr (t.distinct.imp fun hab hc => hab (hf _ _ hc))⟩

end Table
end Statement.Foundation
