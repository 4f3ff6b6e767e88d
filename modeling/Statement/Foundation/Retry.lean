import Mathlib.Data.List.Basic
import Mathlib.Data.Nat.Find

/-! Jobs that a queue runs again.

A queue hands a job the number of its earlier runs. It runs the job again as long
as a run asks for it, and never after one that does not. So what it has run is a
prefix of the runs it could make, and it stops at the first that asks for no
other. -/
namespace Statement.Foundation

/-- A job in its queue, with what has been run of it. -/
structure Retried (E : Type) where
  attempts : Nat
  live : Bool
  log : List E
  deriving DecidableEq

namespace Retried
variable {O E : Type} (execute : Nat → O → E) (again : E → Bool)

def start : Retried E := ⟨0, true, []⟩

/-- A live job is run, and comes again one attempt later if it asks for it. -/
def next (j : Retried E) (o : O) : Option (Retried E) :=
  if j.live then
    let e := execute j.attempts o
    some (if again e then ⟨j.attempts + 1, true, j.log ++ [e]⟩ else ⟨j.attempts, false, j.log ++ [e]⟩)
  else none

/-- The job after `n` runs, if the queue makes them. -/
def after (outcome : Nat → O) : Nat → Option (Retried E)
  | 0 => some start
  | n + 1 => (after outcome n).bind fun j => j.next execute again (outcome n)

variable {execute again} {outcome : Nat → O}

/-- While every run asks for another, the job is live and every run is logged. -/
theorem after_live {n : Nat} (h : ∀ k < n, again (execute k (outcome k)) = true) :
    after execute again outcome n =
      some ⟨n, true, (List.range n).map fun k => execute k (outcome k)⟩ := by
  induction n with
  | zero => rfl
  | succ n ih =>
    have hn := h n (Nat.lt_succ_self n)
    rw [after, ih fun k hk => h k (Nat.lt_succ_of_lt hk)]
    simp [next, hn, List.range_succ]

/-- The run that asks for no other is the last. -/
theorem after_last {n : Nat} (h : ∀ k < n, again (execute k (outcome k)) = true)
    (hn : again (execute n (outcome n)) = false) :
    after execute again outcome (n + 1) =
      some ⟨n, false, (List.range n).map (fun k => execute k (outcome k)) ++ [execute n (outcome n)]⟩ := by
  rw [after, after_live h]
  simp [next, hn]

theorem after_none {n : Nat} {j : Retried E} (h : after execute again outcome n = some j)
    (hj : j.live = false) {m : Nat} (hm : n < m) : after execute again outcome m = none := by
  induction m, hm using Nat.le_induction with
  | base => simp [after, h, next, hj]
  | succ m _ ih => rw [after, ih, Option.bind_none]

/-- A job whose runs stop asking at `N` has a last run by then. -/
theorem exists_last {N : Nat} (h : ∀ o, again (execute N o) = false) (outcome : Nat → O) :
    ∃ n ≤ N, (∀ k < n, again (execute k (outcome k)) = true) ∧
      again (execute n (outcome n)) = false := by
  have hex : ∃ n, again (execute n (outcome n)) = false := ⟨N, h (outcome N)⟩
  refine ⟨Nat.find hex, Nat.find_min' hex (h (outcome N)), fun k hk => ?_, Nat.find_spec hex⟩
  exact Bool.not_eq_false _ ▸ Nat.find_min hex hk

end Retried
end Statement.Foundation
