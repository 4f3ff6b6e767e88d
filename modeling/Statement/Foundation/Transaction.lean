import Mathlib

/-! Transactions under READ COMMITTED, with locks held to the end.

A `Program` says what the parties run: a request starts a local state, a
statement reads the committed data and moves the local state, and a commit
publishes what the local state has prepared. A statement may take locks, which
it then holds until its transaction ends; while another transaction holds one
that conflicts with them the statement does not happen. What a lock is held on (a
row, an entry of a unique index, an advisory key) and what conflicts are parameters.
A transaction can end without committing at any point: an exception, a crash, a
retry.

`Contract` is the proof rule: an invariant of the committed data, an assertion
about each local state, and a guarantee that relates the data before and after
a commit and names the locks it was made under. Assertions have to survive only
commits made under locks that are compatible with theirs. `Contract.run` is proved
once. -/
namespace Statement.Foundation

/-- Which locks keep a transaction from having a lock as long as another one has them.
A lock that only one transaction can have is among its own. -/
class Conflicting (K : Type) where
  conflicts : K → List K
  symm : ∀ {k k' : K}, k' ∈ conflicts k → k ∈ conflicts k'

export Conflicting (conflicts)

/-- What two transactions can hold at a time. -/
def Compatible {K : Type} [Conflicting K] (H H' : Set K) : Prop := ∀ k ∈ H, ∀ k' ∈ H', k' ∉ conflicts k

namespace Compatible
variable {K : Type} [Conflicting K] {H H' : Set K} {k : K}

theorem symm (h : Compatible H H') : Compatible H' H := fun k' hk' k hk hc => h k hk k' hk' (Conflicting.symm hc)

theorem empty (H : Set K) : Compatible H ∅ := fun _ _ _ hk' => hk'.elim

/-- An exclusive lock has one holder. -/
theorem exclusive (h : Compatible H H') (hself : k ∈ conflicts k) (hk : k ∈ H) : k ∉ H' :=
  fun hk' => h k hk k hk' hself

theorem exclusive_right (h : Compatible H H') (hself : k ∈ conflicts k) (hk : k ∈ H') : k ∉ H :=
  h.symm.exclusive hself hk

end Compatible

/-- What parties run. `statement` is given whether a lock is available to its
transaction, for statements that ask without waiting. -/
structure Program (R D L K I : Type) where
  start : R → L
  statement : I → D → (K → Bool) → L → Option (List K × L)
  commit : D → L → Option D

structure World (T D L K : Type) where
  committed : D
  running : T → Option L
  holders : K → List T

inductive Action (T R I : Type) where
  | begin (t : T) (r : R)
  | statement (t : T) (i : I)
  | commit (t : T)
  | rollback (t : T)

/-- Whose action it is. -/
def Action.actor {T R I : Type} : Action T R I → T
  | .begin t _ | .statement t _ | .commit t | .rollback t => t

namespace World
variable {T R D L K I : Type}

/-- The data, and nobody running. -/
def initial (d : D) : World T D L K := ⟨d, fun _ => none, fun _ => []⟩

def holds (w : World T D L K) (t : T) : Set K := {k | t ∈ w.holders k}

theorem mem_holds (w : World T D L K) (t : T) (k : K) : k ∈ w.holds t ↔ t ∈ w.holders k :=
  Iff.rfl

theorem initial_holds (d : D) (t : T) : (initial d : World T D L K).holds t = ∅ :=
  Set.eq_empty_of_forall_notMem fun _ hk => nomatch hk

section
variable [DecidableEq T]

/-- Nobody else holds what conflicts with the lock. -/
def available [Conflicting K] (w : World T D L K) (t : T) (k : K) : Bool :=
  (conflicts k).all fun k' => (w.holders k').all fun u => u = t

theorem available_iff [Conflicting K] {w : World T D L K} {t : T} {k : K} :
    w.available t k = true ↔ ∀ k' ∈ conflicts k, ∀ u ∈ w.holders k', u = t := by
  simp [available]

def finish (w : World T D L K) (t : T) (d : D) : World T D L K :=
  ⟨d, Function.update w.running t none, fun k => (w.holders k).filter (· ≠ t)⟩

/-- Ending a transaction takes its locks away and nobody else's. -/
theorem finish_holds (w : World T D L K) (t u : T) (d : D) (hu : u ≠ t) :
    (w.finish t d).holds u = w.holds u := by
  ext k
  simp [mem_holds, finish, hu]

theorem finish_holds_self (w : World T D L K) (t : T) (d : D) : (w.finish t d).holds t = ∅ := by
  ext k
  simp [mem_holds, finish]

/-- `t` has moved to `l` and taken the locks `ks`. -/
def grant [DecidableEq K] (w : World T D L K) (t : T) (l : L) (ks : List K) : World T D L K :=
  ⟨w.committed, Function.update w.running t (some l), fun k => if k ∈ ks then t :: w.holders k else w.holders k⟩

@[simp] theorem grant_committed [DecidableEq K] (w : World T D L K) (t : T) (l : L) (ks : List K) :
    (w.grant t l ks).committed = w.committed := rfl

@[simp] theorem grant_running [DecidableEq K] (w : World T D L K) (t : T) (l : L) (ks : List K) :
    (w.grant t l ks).running = Function.update w.running t (some l) := rfl

theorem grant_holds [DecidableEq K] (w : World T D L K) (t u : T) (l : L) (ks : List K) (hu : u ≠ t) :
    (w.grant t l ks).holds u = w.holds u := by
  ext k
  by_cases hk : k ∈ ks <;> simp [mem_holds, grant, hk, hu]

theorem grant_holds_self [DecidableEq K] (w : World T D L K) (t : T) (l : L) (ks : List K) :
    (w.grant t l ks).holds t = w.holds t ∪ {k | k ∈ ks} := by
  ext k
  by_cases hk : k ∈ ks <;> simp [mem_holds, grant, hk]

end

variable [Conflicting K]

/-- What is asserted of each local state holds under the locks of its transaction,
nobody has a lock that conflicts with another's, and whoever does not run holds
nothing. -/
structure Asserted (w : World T D L K) (Q : Set K → L → Prop) : Prop where
  holds : ∀ t l, w.running t = some l → Q (w.holds t) l
  compatible : ∀ t u, u ≠ t → Compatible (w.holds t) (w.holds u)
  idle : ∀ t, w.running t = none → w.holds t = ∅

namespace Asserted
variable {w : World T D L K} {Q Q' : Set K → L → Prop}

theorem initial (d : D) : (initial d : World T D L K).Asserted Q := by
  refine ⟨fun _ _ hl => (nomatch hl), fun t u _ => ?_, fun t _ => initial_holds d t⟩
  rw [initial_holds d u]
  exact .empty _

variable [DecidableEq T]

/-- Ending `t`, if the others' assertions hold of the data it leaves. -/
theorem finish (h : w.Asserted Q) (t : T) (d : D)
    (hl : ∀ u l, u ≠ t → w.running u = some l → Q' (w.holds u) l) : (w.finish t d).Asserted Q' := by
  refine ⟨fun u l hu => ?_, fun u v huv => ?_, fun u hu => ?_⟩
  · by_cases hut : u = t
    · subst hut
      simp [World.finish] at hu
    · rw [finish_holds w t u d hut]
      refine hl u l hut ?_
      simpa [World.finish, Function.update_of_ne hut] using hu
  · by_cases hut : u = t
    · rw [hut, finish_holds_self]
      exact Compatible.symm (.empty _)
    · by_cases hvt : v = t
      · rw [hvt, finish_holds_self]
        exact .empty _
      · rw [finish_holds w t u d hut, finish_holds w t v d hvt]
        exact h.compatible u v huv
  · by_cases hut : u = t
    · subst hut
      exact finish_holds_self w u d
    · rw [finish_holds w t u d hut]
      refine h.idle u ?_
      simpa [World.finish, Function.update_of_ne hut] using hu

theorem begin (h : w.Asserted Q) (t : T) (l : L) (ht : w.running t = none) (hl : Q ∅ l) :
    {w with running := Function.update w.running t (some l)}.Asserted Q := by
  refine ⟨fun u m hu => ?_, h.compatible, fun u hu => ?_⟩
  · by_cases hut : u = t
    · subst hut
      simp only [Function.update_self, Option.some.injEq] at hu
      have hidle : w.holds u = ∅ := h.idle u ht
      show Q (w.holds u) m
      rw [← hu, hidle]
      exact hl
    · exact h.holds u m (by simpa [Function.update_of_ne hut] using hu)
  · by_cases hut : u = t
    · subst hut
      simp at hu
    · exact h.idle u (by simpa [Function.update_of_ne hut] using hu)

theorem statement [DecidableEq K] (h : w.Asserted Q) (t : T) (l l' : L) (ks : List K)
    (hl : w.running t = some l) (hks : ∀ k ∈ ks, w.available t k = true)
    (hs : Q (w.holds t ∪ {k | k ∈ ks}) l') : (w.grant t l' ks).Asserted Q := by
  -- what was granted conflicts with nothing that the others hold
  have hnew : ∀ u, u ≠ t → Compatible (w.holds t ∪ {k | k ∈ ks}) (w.holds u) := by
    intro u hut k hk k' hk' hconflict
    rcases hk with hk | hk
    · exact h.compatible t u hut k hk k' hk' hconflict
    · exact hut (available_iff.mp (hks k hk) k' hconflict u hk')
  refine ⟨fun u m hu => ?_, fun u v huv => ?_, fun u hu => ?_⟩
  · by_cases hut : u = t
    · subst hut
      rw [grant_holds_self]
      simp only [grant, Function.update_self, Option.some.injEq] at hu
      exact hu ▸ hs
    · rw [grant_holds w t u l' ks hut]
      exact h.holds u m (by simpa [grant, Function.update_of_ne hut] using hu)
  · by_cases hut : u = t
    · have hvt : v ≠ t := hut ▸ huv
      rw [hut, grant_holds_self, grant_holds w t v l' ks hvt]
      exact hnew v hvt
    · rw [grant_holds w t u l' ks hut]
      by_cases hvt : v = t
      · rw [hvt, grant_holds_self]
        exact (hnew u hut).symm
      · rw [grant_holds w t v l' ks hvt]
        exact h.compatible u v huv
  · by_cases hut : u = t
    · subst hut
      simp [grant] at hu
    · rw [grant_holds w t u l' ks hut]
      exact h.idle u (by simpa [grant, Function.update_of_ne hut] using hu)

end Asserted

variable [DecidableEq T] [DecidableEq K]

def next (P : Program R D L K I) (w : World T D L K) : Action T R I → Option (World T D L K)
  | .begin t r =>
    match w.running t with
    | some _ => none
    | none => some {w with running := Function.update w.running t (some (P.start r))}
  | .statement t i => do
    let l ← w.running t
    let (ks, l') ← P.statement i w.committed (w.available t) l
    if ks.all (w.available t) then some (w.grant t l' ks) else none
  | .commit t => do
    let l ← w.running t
    let d ← P.commit w.committed l
    some (w.finish t d)
  | .rollback t => do
    let _ ← w.running t
    some (w.finish t w.committed)

def run (P : Program R D L K I) (w : World T D L K) : List (Action T R I) → Option (World T D L K)
  | [] => some w
  | a :: rest => (w.next P a).bind fun w' => run P w' rest

variable {P : Program R D L K I}

theorem run_append (w : World T D L K) (as bs : List (Action T R I)) :
    w.run P (as ++ bs) = (w.run P as).bind fun w' => w'.run P bs := by
  induction as generalizing w with
  | nil => rfl
  | cons a rest ih =>
    simp only [List.cons_append, run, Option.bind_assoc]
    congr 1
    exact funext fun w' => ih w'

/-- What a step is, by its action. -/
theorem next_begin {w w' : World T D L K} {t : T} {r : R} (h : w.next P (.begin t r) = some w') :
    w.running t = none ∧ w' = {w with running := Function.update w.running t (some (P.start r))} := by
  simp only [next] at h
  cases hr : w.running t <;> simp_all

theorem next_statement {w w' : World T D L K} {t : T} {i : I}
    (h : w.next P (.statement t i) = some w') :
    ∃ l ks l', w.running t = some l ∧ P.statement i w.committed (w.available t) l = some (ks, l') ∧
      (∀ k ∈ ks, w.available t k = true) ∧ w' = w.grant t l' ks := by
  simp only [next, Option.bind_eq_bind, Option.bind_eq_some_iff] at h
  obtain ⟨l, hl, ⟨ks, l'⟩, hs, h⟩ := h
  split at h
  · rename_i hks
    exact ⟨l, ks, l', hl, hs, List.all_eq_true.mp hks, (Option.some.inj h).symm⟩
  · cases h

theorem next_commit {w w' : World T D L K} {t : T} (h : w.next P (.commit t) = some w') :
    ∃ l d, w.running t = some l ∧ P.commit w.committed l = some d ∧ w' = w.finish t d := by
  simp only [next, Option.bind_eq_bind, Option.bind_eq_some_iff, Option.some.injEq] at h
  obtain ⟨l, hl, d, hd, h⟩ := h
  exact ⟨l, d, hl, hd, h.symm⟩

theorem next_rollback {w w' : World T D L K} {t : T} (h : w.next P (.rollback t) = some w') :
    (∃ l, w.running t = some l) ∧ w' = w.finish t w.committed := by
  simp only [next, Option.bind_eq_bind, Option.bind_eq_some_iff, Option.some.injEq] at h
  obtain ⟨l, hl, h⟩ := h
  exact ⟨⟨l, hl⟩, h.symm⟩

/-- Only a commit changes the data. -/
theorem next_committed {w w' : World T D L K} {a : Action T R I} (h : w.next P a = some w') :
    w'.committed = w.committed ∨ ∃ l, a = .commit a.actor ∧ w.running a.actor = some l ∧
      P.commit w.committed l = some w'.committed := by
  cases a with
  | begin t r =>
    obtain ⟨_, rfl⟩ := next_begin h
    exact .inl rfl
  | statement t i =>
    obtain ⟨_, _, _, _, _, _, rfl⟩ := next_statement h
    exact .inl rfl
  | commit t =>
    obtain ⟨l, d, hl, hd, rfl⟩ := next_commit h
    exact .inr ⟨l, rfl, hl, hd⟩
  | rollback t =>
    obtain ⟨_, rfl⟩ := next_rollback h
    exact .inl rfl

end World

/-! ### The proof rule -/

/-- What the parties owe. `Holds H d l` is about a local state `l` whose
transaction holds the locks `H`; `Guarantee H d d'` is what a commit made under
the locks `H` may do to the data. -/
structure Contract {R D L K I : Type} [Conflicting K] (P : Program R D L K I) (Allowed : R → Prop) where
  Inv : D → Prop
  Holds : Set K → D → L → Prop
  Guarantee : Set K → D → D → Prop
  start : ∀ r d, Allowed r → Inv d → Holds ∅ d (P.start r)
  statement : ∀ i d free H l ks l', Inv d → Holds H d l → P.statement i d free l = some (ks, l') →
    Holds (H ∪ {k | k ∈ ks}) d l'
  commit : ∀ d H l d', Inv d → Holds H d l → P.commit d l = some d' → Inv d' ∧ Guarantee H d d'
  stable : ∀ d d' H H' l, Inv d → Guarantee H d d' → Compatible H H' → Holds H' d l → Holds H' d' l

namespace Contract
variable {T R D L K I : Type} [Conflicting K] {P : Program R D L K I} {Allowed : R → Prop}

/-- The data is sound, what every transaction believes is true under the locks
it holds, and the locks go together. -/
structure Valid (C : Contract P Allowed) (w : World T D L K) : Prop
    extends w.Asserted fun H l => C.Holds H w.committed l where
  inv : C.Inv w.committed

variable (C : Contract P Allowed)

theorem valid_initial (d : D) (h : C.Inv d) : C.Valid (World.initial d : World T D L K) := ⟨.initial d, h⟩

variable [DecidableEq T]

/-- Ending `t` is valid if the others' assertions hold of the data it leaves. -/
theorem valid_finish {w : World T D L K} (h : C.Valid w) (t : T) (d : D) (hd : C.Inv d)
    (hl : ∀ u l, u ≠ t → w.running u = some l → C.Holds (w.holds u) d l) :
    C.Valid (w.finish t d) := ⟨h.toAsserted.finish t d hl, hd⟩

theorem valid_begin {w : World T D L K} (h : C.Valid w) (t : T) (r : R) (hr : Allowed r)
    (ht : w.running t = none) :
    C.Valid {w with running := Function.update w.running t (some (P.start r))} :=
  ⟨h.toAsserted.begin t (P.start r) ht (C.start r _ hr h.inv), h.inv⟩

variable [DecidableEq K]

theorem valid_statement {w : World T D L K} (h : C.Valid w) (t : T) (l l' : L) (ks : List K)
    (hl : w.running t = some l) (hks : ∀ k ∈ ks, w.available t k = true)
    (hs : C.Holds (w.holds t ∪ {k | k ∈ ks}) w.committed l') : C.Valid (w.grant t l' ks) :=
  ⟨h.toAsserted.statement t l l' ks hl hks hs, h.inv⟩

/-- What one step preserves. -/
theorem valid_next {w w' : World T D L K} (h : C.Valid w) (a : Action T R I)
    (ha : ∀ t r, a = .begin t r → Allowed r) (hw : w.next P a = some w') : C.Valid w' := by
  cases a with
  | begin t r =>
    obtain ⟨ht, rfl⟩ := World.next_begin hw
    exact C.valid_begin h t r (ha t r rfl) ht
  | statement t i =>
    obtain ⟨l, ks, l', hl, hs, hks, rfl⟩ := World.next_statement hw
    exact C.valid_statement h t l l' ks hl hks (C.statement i _ _ _ _ ks l' h.inv (h.holds t l hl) hs)
  | commit t =>
    obtain ⟨l, d, hl, hd, rfl⟩ := World.next_commit hw
    obtain ⟨hinv, hg⟩ := C.commit _ _ l d h.inv (h.holds t l hl) hd
    refine C.valid_finish h t d hinv fun u m hut hm => ?_
    exact C.stable _ _ _ _ m h.inv hg (h.compatible t u hut) (h.holds u m hm)
  | rollback t =>
    obtain ⟨_, rfl⟩ := World.next_rollback hw
    exact C.valid_finish h t _ h.inv fun u m _ hm => h.holds u m hm

/-- Every state a valid one can run to is valid. -/
theorem valid_run {w w' : World T D L K} (h : C.Valid w) (as : List (Action T R I))
    (ha : ∀ t r, Action.begin t r ∈ as → Allowed r) (hw : w.run P as = some w') : C.Valid w' := by
  induction as generalizing w with
  | nil =>
    cases hw
    exact h
  | cons a rest ih =>
    obtain ⟨w₁, h₁, hrest⟩ := Option.bind_eq_some_iff.mp hw
    refine ih (C.valid_next h a (fun t r he => ha t r (he ▸ List.mem_cons_self)) h₁) ?_ hrest
    exact fun t r hm => ha t r (List.mem_cons_of_mem a hm)

/-- What relates the data before and after every commit, and composes, relates the
data at the two ends of a run. -/
theorem run_commits (Q : D → D → Prop) (hrefl : ∀ d, Q d d) (htrans : ∀ a b c, Q a b → Q b c → Q a c)
    (hQ : ∀ H d l d', C.Inv d → C.Holds H d l → P.commit d l = some d' → Q d d') {w w' : World T D L K}
    (h : C.Valid w) (as : List (Action T R I)) (ha : ∀ t r, Action.begin t r ∈ as → Allowed r)
    (hw : w.run P as = some w') : Q w.committed w'.committed := by
  induction as generalizing w with
  | nil =>
    cases hw
    exact hrefl _
  | cons a rest ih =>
    obtain ⟨w₁, h₁, hrest⟩ := Option.bind_eq_some_iff.mp hw
    have hv := C.valid_next h a (fun t r he => ha t r (he ▸ List.mem_cons_self)) h₁
    refine htrans _ _ _ ?_ (ih hv (fun t r hm => ha t r (List.mem_cons_of_mem a hm)) hrest)
    rcases World.next_committed h₁ with hsame | ⟨l, _, hl, hc⟩
    · rw [hsame]
      exact hrefl _
    · exact hQ _ _ l _ h.inv (h.holds _ l hl) hc

/-- What every guarantee implies, and what composes, relates the data at the two
ends of a run. -/
theorem run_rel (Q : D → D → Prop) (hrefl : ∀ d, Q d d) (htrans : ∀ a b c, Q a b → Q b c → Q a c)
    (hQ : ∀ H d d', C.Inv d → C.Guarantee H d d' → Q d d') {w w' : World T D L K} (h : C.Valid w)
    (as : List (Action T R I)) (ha : ∀ t r, Action.begin t r ∈ as → Allowed r)
    (hw : w.run P as = some w') : Q w.committed w'.committed :=
  C.run_commits Q hrefl htrans
    (fun H d l d' hinv hl hc => hQ H d d' hinv (C.commit d H l d' hinv hl hc).2) h as ha hw

/-- What no commit destroys is kept by a run. -/
theorem run_keeps (Q : D → Prop)
    (hQ : ∀ H d l d', C.Inv d → C.Holds H d l → P.commit d l = some d' → Q d → Q d')
    {w w' : World T D L K} (h : C.Valid w) (as : List (Action T R I))
    (ha : ∀ t r, Action.begin t r ∈ as → Allowed r) (hw : w.run P as = some w')
    (hq : Q w.committed) : Q w'.committed :=
  C.run_commits (fun d d' => Q d → Q d') (fun _ h => h) (fun _ _ _ hab hbc hqa => hbc (hab hqa)) hQ h as
    ha hw hq

end Contract
end Statement.Foundation
