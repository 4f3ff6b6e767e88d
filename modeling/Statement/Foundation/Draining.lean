import Statement.Foundation.Waiting

/-! How long what is running can still run.

A program `Shrinks` when every statement leaves its transaction fewer to run. Then a
world that nobody joins ends within its load: one step for every statement that is
left, and one for the end of every transaction. -/
namespace Statement.Foundation
open Finset

variable {T R D L K I : Type} {P : Program R D L K I} {left : L → Nat}

/-- A statement leaves fewer statements than there were. -/
def Shrinks (P : Program R D L K I) (left : L → Nat) : Prop :=
  ∀ i d free l ks l', P.statement i d free l = some (ks, l') → left l' < left l

/-- The steps left of a transaction, its end among them. -/
def steps (left : L → Nat) : Option L → Nat
  | none => 0
  | some l => left l + 1

/-- The steps left of the transactions in `s`. -/
def load (left : L → Nat) (w : World T D L K) (s : Finset T) : Nat := ∑ t ∈ s, steps left (w.running t)

/-- Nobody runs but those in `s`. -/
def RunsWithin (w : World T D L K) (s : Finset T) : Prop := ∀ t, w.running t ≠ none → t ∈ s

/-- The action begins no transaction. -/
def Action.Continues : Action T R I → Prop
  | .begin _ _ => False
  | _ => True

section
variable [DecidableEq T] {w w' : World T D L K} {s : Finset T} {t : T}

theorem load_update (left : L → Nat) {o : Option L} (ht : t ∈ s)
    (h : w'.running = Function.update w.running t o) :
    load left w' s + steps left (w.running t) = load left w s + steps left o := by
  have hcomp : (fun u => steps left (w'.running u)) =
      Function.update (fun u => steps left (w.running u)) t (steps left o) := by
    funext u
    rw [h]
    by_cases hu : u = t
    · rw [hu, Function.update_self, Function.update_self]
    · rw [Function.update_of_ne hu, Function.update_of_ne hu]
  rw [load, load, hcomp, sum_update_of_mem ht, sum_eq_add_sum_sdiff_singleton_of_mem ht]
  omega

theorem RunsWithin.update {o : Option L} (hs : RunsWithin w s) (ht : t ∈ s)
    (h : w'.running = Function.update w.running t o) : RunsWithin w' s := by
  intro u hu
  by_cases hut : u = t
  · exact hut ▸ ht
  · rw [h, Function.update_of_ne hut] at hu
    exact hs u hu

variable [DecidableEq K] [Conflicting K]

/-- A step that begins nothing takes one off the load. -/
theorem load_next (hP : Shrinks P left) (hs : RunsWithin w s) {a : Action T R I} (ha : a.Continues)
    (h : w.next P a = some w') : RunsWithin w' s ∧ load left w' s < load left w s := by
  cases a with
  | begin t r => exact ha.elim
  | statement t i =>
    obtain ⟨l, ks, l', hl, hst, _, hw'⟩ := World.next_statement h
    have ht : t ∈ s := hs t (by simp [hl])
    have hrunning : w'.running = Function.update w.running t (some l') := congrArg World.running hw'
    have hload := load_update left ht hrunning
    have hless := hP i w.committed (w.available t) l ks l' hst
    simp only [hl, steps] at hload
    exact ⟨hs.update ht hrunning, by omega⟩
  | commit t =>
    obtain ⟨l, d, hl, _, hw'⟩ := World.next_commit h
    have ht : t ∈ s := hs t (by simp [hl])
    have hrunning : w'.running = Function.update w.running t none := congrArg World.running hw'
    have hload := load_update left ht hrunning
    simp only [hl, steps] at hload
    exact ⟨hs.update ht hrunning, by omega⟩
  | rollback t =>
    obtain ⟨⟨l, hl⟩, hw'⟩ := World.next_rollback h
    have ht : t ∈ s := hs t (by simp [hl])
    have hrunning : w'.running = Function.update w.running t none := congrArg World.running hw'
    have hload := load_update left ht hrunning
    simp only [hl, steps] at hload
    exact ⟨hs.update ht hrunning, by omega⟩

/-- **A run that begins nothing is no longer than the load it starts with.** -/
theorem run_le_load (hP : Shrinks P left) (hs : RunsWithin w s) {as : List (Action T R I)}
    (has : ∀ a ∈ as, a.Continues) (h : w.run P as = some w') :
    RunsWithin w' s ∧ load left w' s + as.length ≤ load left w s := by
  induction as generalizing w with
  | nil =>
    cases h
    exact ⟨hs, le_rfl⟩
  | cons a rest ih =>
    obtain ⟨w₁, h₁, hrest⟩ := Option.bind_eq_some_iff.mp h
    obtain ⟨hs₁, hless⟩ := load_next hP hs (has a List.mem_cons_self) h₁
    obtain ⟨hs', hload⟩ := ih hs₁ (fun b hb => has b (List.mem_cons_of_mem a hb)) hrest
    refine ⟨hs', ?_⟩
    rw [List.length_cons]
    omega

/-- A step changes what its own transaction runs. -/
theorem running_of_ne {a : Action T R I} (h : w.next P a = some w') (ht : t ≠ a.actor) :
    w'.running t = w.running t := by
  cases a with
  | begin u r =>
    obtain ⟨_, rfl⟩ := World.next_begin h
    exact Function.update_of_ne ht _ _
  | statement u i =>
    obtain ⟨_, _, _, _, _, _, rfl⟩ := World.next_statement h
    exact Function.update_of_ne ht _ _
  | commit u =>
    obtain ⟨_, _, _, _, rfl⟩ := World.next_commit h
    exact Function.update_of_ne ht _ _
  | rollback u =>
    obtain ⟨_, rfl⟩ := World.next_rollback h
    exact Function.update_of_ne ht _ _

/-- Only who has begun is running. -/
theorem runsWithin_run {d : D} {as : List (Action T R I)} (h : (World.initial d).run P as = some w) :
    ∃ s : Finset T, RunsWithin w s := by
  have hrun : ∀ (as : List (Action T R I)) (w : World T D L K) (s : Finset T), RunsWithin w s →
      ∀ w', w.run P as = some w' → RunsWithin w' (s ∪ (as.map Action.actor).toFinset) := by
    intro as
    induction as with
    | nil =>
      intro w s hs w' h
      cases h
      exact fun t ht => mem_union_left _ (hs t ht)
    | cons a rest ih =>
      intro w s hs w' h
      obtain ⟨w₁, h₁, hrest⟩ := Option.bind_eq_some_iff.mp h
      have hs₁ : RunsWithin w₁ (s ∪ {a.actor}) := by
        intro t ht
        by_cases hta : t = a.actor
        · exact mem_union_right _ (mem_singleton.mpr hta)
        · refine mem_union_left _ (hs t ?_)
          rwa [← running_of_ne h₁ hta]
      intro t ht
      have := ih w₁ _ hs₁ w' hrest t ht
      simp only [mem_union, mem_singleton, List.map_cons, List.toFinset_cons, mem_insert] at this ⊢
      tauto
  exact ⟨_, hrun as _ ∅ (fun t ht => absurd rfl ht) w h⟩

end
end Statement.Foundation
