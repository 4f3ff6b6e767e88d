import Statement.Foundation.Transaction

/-! Runs with their history.

An `Audit` is a world with what has happened in it: the committed data from the
start to now, and the local states of the transactions that committed, in the
order of their commits. It restricts nothing: every run is an audited one. -/
namespace Statement.Foundation

structure Audit (T D L K : Type) where
  world : World T D L K
  states : List D
  commits : List L

namespace Audit
variable {T R D L K I : Type}

def start (d : D) : Audit T D L K := ⟨World.initial d, [d], []⟩

/-- Who commits in an action. -/
def committer (w : World T D L K) : Action T R I → List L
  | .commit t => (w.running t).toList
  | _ => []

/-- Every state is related to all later ones. -/
structure Progressive (Q : D → D → Prop) (x : Audit T D L K) : Prop where
  pairwise : x.states.Pairwise Q
  current : ∀ d ∈ x.states, Q d x.world.committed

theorem Progressive.start {Q : D → D → Prop} (hrefl : ∀ d, Q d d) (d : D) :
    (start d : Audit T D L K).Progressive Q :=
  ⟨List.pairwise_singleton _ _, fun _ hd => List.mem_singleton.mp hd ▸ hrefl d⟩

variable [DecidableEq T] [DecidableEq K] [Conflicting K]

def next (P : Program R D L K I) (x : Audit T D L K) (a : Action T R I) : Option (Audit T D L K) :=
  (x.world.next P a).map fun w => ⟨w, x.states ++ [w.committed], x.commits ++ committer x.world a⟩

def run (P : Program R D L K I) (x : Audit T D L K) : List (Action T R I) → Option (Audit T D L K)
  | [] => some x
  | a :: rest => (x.next P a).bind fun y => run P y rest

variable {P : Program R D L K I} {x y : Audit T D L K}

theorem next_some {a : Action T R I} (h : x.next P a = some y) :
    x.world.next P a = some y.world ∧ y.states = x.states ++ [y.world.committed] ∧
      y.commits = x.commits ++ committer x.world a := by
  obtain ⟨w, hw, rfl⟩ := Option.map_eq_some_iff.mp h
  exact ⟨hw, rfl, rfl⟩

/-- An audited run is a run. -/
theorem run_world {as : List (Action T R I)} (h : x.run P as = some y) :
    x.world.run P as = some y.world := by
  induction as generalizing x with
  | nil =>
    cases h
    rfl
  | cons a rest ih =>
    obtain ⟨z, hz, hrest⟩ := Option.bind_eq_some_iff.mp h
    rw [World.run, (next_some hz).1]
    exact ih hrest

/-- An invariant of what has happened, whose step may use what the contract gives. -/
theorem run_inv {Allowed : R → Prop} (C : Contract P Allowed) (Q : Audit T D L K → Prop)
    (hstep : ∀ x a y, C.Valid x.world → Q x → x.next P a = some y → Q y)
    {as : List (Action T R I)} (hvalid : C.Valid x.world) (h : Q x)
    (ha : ∀ t r, Action.begin t r ∈ as → Allowed r) (hrun : x.run P as = some y) :
    C.Valid y.world ∧ Q y := by
  induction as generalizing x with
  | nil =>
    cases hrun
    exact ⟨hvalid, h⟩
  | cons a rest ih =>
    obtain ⟨z, hz, hrest⟩ := Option.bind_eq_some_iff.mp hrun
    have hvalid' : C.Valid z.world :=
      C.valid_next hvalid a (fun t r he => ha t r (he ▸ List.mem_cons_self)) (next_some hz).1
    exact ih hvalid' (hstep x a z hvalid h hz) (fun t r hm => ha t r (List.mem_cons_of_mem a hm)) hrest

/-- Every step of a run meets `C` in the world that it is taken in. -/
def Meets (P : Program R D L K I) (C : World T D L K → Action T R I → Prop) (x : Audit T D L K) :
    List (Action T R I) → Prop
  | [] => True
  | a :: rest => C x.world a ∧ match x.next P a with
    | none => True
    | some y => Meets P C y rest

instance decidableMeets (P : Program R D L K I) (C : World T D L K → Action T R I → Prop)
    [∀ w a, Decidable (C w a)] : ∀ (x : Audit T D L K) (as : List (Action T R I)), Decidable (x.Meets P C as)
  | _, [] => isTrue trivial
  | x, a :: rest =>
    match h : x.next P a with
    | none => decidable_of_iff (C x.world a) (by simp [Meets, h])
    | some y =>
      have := decidableMeets P C y rest
      decidable_of_iff (C x.world a ∧ y.Meets P C rest) (by simp [Meets, h])

/-- An invariant of what has happened in the runs whose steps all meet a condition. -/
theorem run_meets {C : World T D L K → Action T R I → Prop} (Q : Audit T D L K → Prop)
    {as : List (Action T R I)} (hstep : ∀ x a y, a ∈ as → Q x → C x.world a → x.next P a = some y → Q y)
    (h : Q x) (hmeets : x.Meets P C as) (hrun : x.run P as = some y) : Q y := by
  induction as generalizing x with
  | nil =>
    cases hrun
    exact h
  | cons a rest ih =>
    obtain ⟨z, hz, hrest⟩ := Option.bind_eq_some_iff.mp hrun
    obtain ⟨hc, hmeets⟩ := hmeets
    rw [hz] at hmeets
    refine ih (fun x b y hb => hstep x b y (List.mem_cons_of_mem a hb)) ?_ hmeets hrest
    exact hstep x a z List.mem_cons_self h hc hz

theorem Progressive.next {Q : D → D → Prop} (hrefl : ∀ d, Q d d) (htrans : ∀ a b c, Q a b → Q b c → Q a c)
    (h : x.Progressive Q) {a : Action T R I} (hnext : x.next P a = some y)
    (hstep : Q x.world.committed y.world.committed) : y.Progressive Q := by
  have hlater : ∀ d ∈ x.states, Q d y.world.committed := fun d hd => htrans _ _ _ (h.current d hd) hstep
  obtain ⟨_, hstates, _⟩ := next_some hnext
  refine ⟨?_, fun d hd => ?_⟩
  · rw [hstates, List.pairwise_append]
    refine ⟨h.pairwise, List.pairwise_singleton _ _, fun d hd d' hd' => ?_⟩
    exact List.mem_singleton.mp hd' ▸ hlater d hd
  · rw [hstates] at hd
    rcases List.mem_append.mp hd with hd | hd
    · exact hlater d hd
    · exact List.mem_singleton.mp hd ▸ hrefl _

end Audit
end Statement.Foundation
