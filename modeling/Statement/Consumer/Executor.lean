import Mathlib.Algebra.Order.Field.Rat
import Mathlib.Algebra.Order.GroupWithZero.Basic
import Mathlib.Data.List.Pairwise
import Mathlib.Tactic.NormNum
import Statement.Foundation.Retry

/-! The retry protocol of a job.

An executor runs the handler and turns its exceptions into the two that the queue
knows: `RetryRequested`, after which the queue runs the job again, and
`LastAttemptError`, after which it does not. -/
namespace Statement.Consumer
open Foundation

/-- The subclasses of `Exception` that the protocol tells apart. -/
inductive ExceptionClass where
  | terminalJobError
  | lastAttemptError
  /-- `errors.RetryRequested`, with the delay it asks for. -/
  | retryRequested (delay : ℚ)
  | other (name : String)
  deriving DecidableEq

/-- An exception with its `str`. -/
structure Exception where
  type : ExceptionClass
  text : String
  deriving DecidableEq

/-- What awaiting a handler comes to: a return or an exception. -/
abbrev Outcome := Except Exception Unit

/-- One call of `execute`: the awaited calls of the hook and how it ends. -/
structure Execution (H : Type) where
  outcome : Outcome
  awaited : List (H × Exception)
  ending : Outcome

/-- The executor's fields. Delays are in seconds. -/
structure DlqRetryEntrypointExecutor (H : Type) where
  maxAttempts : Nat := 3
  initialDelay : ℚ := 1 / 5
  maxDelay : ℚ := 60
  backoffMultiplier : ℚ := 5
  onLastAttempt : Option H := none

namespace DlqRetryEntrypointExecutor
variable {H : Type} (x : DlqRetryEntrypointExecutor H)

def delay (attempts : Nat) : ℚ := min (x.initialDelay * x.backoffMultiplier ^ attempts) x.maxDelay

/-- `_fail`, which never returns. -/
def fail (outcome : Outcome) (e : Exception) : Execution H :=
  ⟨outcome, x.onLastAttempt.toList.map (·, e), .error ⟨.lastAttemptError, e.text⟩⟩

def execute (attempts : Nat) (outcome : Outcome) : Execution H :=
  match outcome with
  | .ok _ => ⟨outcome, [], .ok ()⟩
  | .error e =>
    if e.type = .terminalJobError then x.fail outcome e
    else if attempts ≥ x.maxAttempts then x.fail outcome e
    else ⟨outcome, [], .error ⟨.retryRequested (x.delay attempts), e.text⟩⟩

end DlqRetryEntrypointExecutor

namespace Execution
variable {H : Type}

/-- The delay with which the queue is asked to run the job again. -/
def retryDelay (e : Execution H) : Option ℚ :=
  match e.ending with
  | .error ⟨.retryRequested delay, _⟩ => some delay
  | _ => none

/-- The queue runs a job again on `RetryRequested` only. -/
def again (e : Execution H) : Bool := e.retryDelay.isSome

/-- The execution ends the job in the dead-letter state. -/
def Failed (e : Execution H) : Prop := ∃ text, e.ending = .error ⟨.lastAttemptError, text⟩

/-- The job after `n` executions, by handlers that end as `outcome` says. -/
def lifetime (x : DlqRetryEntrypointExecutor H) (outcome : Nat → Outcome) (n : Nat) :
    Option (Retried (Execution H)) :=
  Retried.after x.execute again outcome n

end Execution

namespace DlqRetryEntrypointExecutor
variable {H : Type} (x : DlqRetryEntrypointExecutor H)

@[simp] theorem execute_outcome (n : Nat) (outcome : Outcome) : (x.execute n outcome).outcome = outcome := by
  unfold execute
  split
  · rfl
  · split
    · rfl
    · split <;> rfl

/-- An execution asks for another exactly within the budget, for an exception that
is not terminal. -/
theorem execute_retry {n : Nat} {outcome : Outcome} (h : (x.execute n outcome).again = true) :
    ∃ e, outcome = .error e ∧ e.type ≠ .terminalJobError ∧ n < x.maxAttempts ∧
      x.execute n outcome = ⟨outcome, [], .error ⟨.retryRequested (x.delay n), e.text⟩⟩ := by
  cases outcome with
  | ok u => cases h
  | error e =>
    by_cases hterminal : e.type = .terminalJobError
    · simp [execute, hterminal, fail, Execution.again, Execution.retryDelay] at h
    · by_cases hn : n ≥ x.maxAttempts
      · simp [execute, hterminal, hn, fail, Execution.again, Execution.retryDelay] at h
      · exact ⟨e, rfl, hterminal, Nat.lt_of_not_le hn, by simp only [execute, if_neg hterminal, if_neg hn]⟩

/-- An execution that asks for no other returns, or fails the job. -/
theorem execute_last {n : Nat} {outcome : Outcome} (h : (x.execute n outcome).again = false) :
    outcome = .ok () ∧ x.execute n outcome = ⟨outcome, [], .ok ()⟩ ∨
      ∃ e, outcome = .error e ∧ x.execute n outcome = x.fail outcome e := by
  cases outcome with
  | ok u => exact .inl ⟨rfl, rfl⟩
  | error e =>
    refine .inr ⟨e, rfl, ?_⟩
    by_cases hterminal : e.type = .terminalJobError
    · simp only [execute, if_pos hterminal]
    · by_cases hn : n ≥ x.maxAttempts
      · simp only [execute, if_neg hterminal, if_pos hn]
      · simp [execute, hterminal, hn, Execution.again, Execution.retryDelay] at h

theorem execute_exhausted (outcome : Outcome) : (x.execute x.maxAttempts outcome).again = false := by
  by_contra h
  obtain ⟨_, _, _, hlt, _⟩ := x.execute_retry (Bool.eq_true_of_not_eq_false h)
  exact Nat.lt_irrefl _ hlt

theorem delay_le_maxDelay (n : Nat) : x.delay n ≤ x.maxDelay := min_le_right _ _

theorem delay_mono (hinitial : 0 ≤ x.initialDelay) (hmultiplier : 1 ≤ x.backoffMultiplier) :
    Monotone x.delay := by
  intro m n hmn
  have hpow := pow_le_pow_right₀ hmultiplier hmn
  exact min_le_min_right _ (mul_le_mul_of_nonneg_left hpow hinitial)

/-! ### The life of a job -/

/-- The last execution returns, and no other fails the job or calls the hook. -/
def Succeeded (log : List (Execution H)) : Prop :=
  ∃ earlier last, log = earlier ++ [last] ∧ (∀ k ∈ earlier, ¬ k.Failed) ∧
    last.outcome = .ok () ∧ last.ending = .ok () ∧ log.flatMap (·.awaited) = []

/-- The last execution alone fails the job, after the one call of the hook, which
is for the exception of that execution. -/
def Exhausted (log : List (Execution H)) : Prop :=
  ∃ earlier last e, log = earlier ++ [last] ∧ (∀ k ∈ earlier, ¬ k.Failed) ∧
    last.outcome = .error e ∧ last.Failed ∧
    log.flatMap (·.awaited) = x.onLastAttempt.toList.map (·, e)

section
variable {x} {outcome : Nat → Outcome} {n : Nat}

theorem not_failed_of_again {k : Execution H} (h : k.again = true) : ¬ k.Failed := by
  intro ⟨text, hending⟩
  simp [Execution.again, Execution.retryDelay, hending] at h

/-- The executions that ask for another, in their order. -/
def retries (x : DlqRetryEntrypointExecutor H) (outcome : Nat → Outcome) (n : Nat) : List (Execution H) :=
  (List.range n).map fun k => x.execute k (outcome k)

theorem retries_again (h : ∀ k < n, (x.execute k (outcome k)).again = true) {k : Execution H}
    (hk : k ∈ x.retries outcome n) : k.again = true := by
  obtain ⟨i, hi, rfl⟩ := List.mem_map.mp hk
  exact h i (List.mem_range.mp hi)

theorem retries_awaited (h : ∀ k < n, (x.execute k (outcome k)).again = true) :
    (x.retries outcome n).flatMap (·.awaited) = [] := by
  rw [List.flatMap_eq_nil_iff]
  intro k hk
  obtain ⟨i, hi, rfl⟩ := List.mem_map.mp hk
  obtain ⟨_, _, _, _, heq⟩ := x.execute_retry (h i (List.mem_range.mp hi))
  rw [heq]

theorem retries_delays (h : ∀ k < n, (x.execute k (outcome k)).again = true) :
    (x.retries outcome n).filterMap (·.retryDelay) = (List.range n).map x.delay := by
  induction n with
  | zero => rfl
  | succ n ih =>
    obtain ⟨_, _, _, _, heq⟩ := x.execute_retry (h n (Nat.lt_succ_self n))
    have ih := ih fun k hk => h k (Nat.lt_succ_of_lt hk)
    rw [retries] at ih ⊢
    rw [List.range_succ, List.map_append, List.filterMap_append, ih, List.map_append]
    simp [heq, Execution.retryDelay]

theorem last_delay (h : (x.execute n (outcome n)).again = false) :
    (x.execute n (outcome n)).retryDelay = none := by
  simpa [Execution.again] using h

theorem ends (h : ∀ k < n, (x.execute k (outcome k)).again = true)
    (hn : (x.execute n (outcome n)).again = false) :
    Succeeded (x.retries outcome n ++ [x.execute n (outcome n)]) ∨
      x.Exhausted (x.retries outcome n ++ [x.execute n (outcome n)]) := by
  have hearlier : ∀ k ∈ x.retries outcome n, ¬ k.Failed := fun k hk =>
    not_failed_of_again (retries_again h hk)
  rcases x.execute_last hn with ⟨hok, hlast⟩ | ⟨e, herror, hlast⟩
  · refine .inl ⟨_, _, rfl, hearlier, by rw [execute_outcome, hok], by rw [hlast], ?_⟩
    rw [List.flatMap_append, retries_awaited h, hlast]
    rfl
  · refine .inr ⟨_, _, e, rfl, hearlier, by rw [execute_outcome, herror], ⟨e.text, by rw [hlast, fail]⟩, ?_⟩
    rw [List.flatMap_append, retries_awaited h, hlast]
    simp [fail]

end

/-- **The retry protocol.** Whatever the handler does, the job is executed at most
`maxAttempts + 1` times and ends once; the hook is for the exception that ends it. -/
theorem retry_protocol (x : DlqRetryEntrypointExecutor H) (hinitial : 0 ≤ x.initialDelay)
    (hmultiplier : 1 ≤ x.backoffMultiplier) (outcome : Nat → Outcome) :
    ∃ n j, n ≤ x.maxAttempts + 1 ∧ Execution.lifetime x outcome n = some j ∧
      (∀ m, n < m → Execution.lifetime x outcome m = none) ∧
      j.log.map (·.outcome) = (List.range n).map outcome ∧
      (Succeeded j.log ∨ x.Exhausted j.log) ∧
      (∀ k e, outcome k = .error e → e.type = .terminalJobError → n ≤ k + 1) ∧
      (j.log.filterMap (·.retryDelay)).Pairwise (· ≤ ·) ∧
      ∀ d ∈ j.log.filterMap (·.retryDelay), d ≤ x.maxDelay := by
  obtain ⟨n, hn, hearlier, hlast⟩ := Retried.exists_last x.execute_exhausted outcome
  have hlife := Retried.after_last hearlier hlast
  have hdelays : (x.retries outcome n ++ [x.execute n (outcome n)]).filterMap (·.retryDelay) =
      (List.range n).map x.delay := by
    rw [List.filterMap_append, retries_delays hearlier]
    simp [last_delay hlast]
  refine ⟨n + 1, _, Nat.succ_le_succ hn, hlife, fun m hm => Retried.after_none hlife rfl hm, ?_,
    ends hearlier hlast, fun k e he hterminal => ?_, ?_, ?_⟩
  · simp [List.range_succ]
  · refine Nat.succ_le_succ (Nat.le_of_not_lt fun hk => ?_)
    obtain ⟨e', he', hother, _⟩ := x.execute_retry (hearlier k hk)
    obtain rfl : e = e' := Except.error.inj (he.symm.trans he')
    exact hother hterminal
  · show ((x.retries outcome n ++ [x.execute n (outcome n)]).filterMap (·.retryDelay)).Pairwise (· ≤ ·)
    rw [hdelays]
    exact (List.pairwise_lt_range.imp Nat.le_of_lt).map x.delay fun _ _ hle =>
      x.delay_mono hinitial hmultiplier hle
  · intro d hd
    change d ∈ (x.retries outcome n ++ [x.execute n (outcome n)]).filterMap (·.retryDelay) at hd
    rw [hdelays] at hd
    obtain ⟨k, _, rfl⟩ := List.mem_map.mp hd
    exact x.delay_le_maxDelay k

/-- The executor of `register_entrypoints`. -/
def registered : DlqRetryEntrypointExecutor String :=
  { maxAttempts := 3, initialDelay := 1 / 5, maxDelay := 60, backoffMultiplier := 5,
    onLastAttempt := some "on_job_last_attempt" }

theorem registered_ends : ∃ n j, n ≤ 4 ∧
    Execution.lifetime registered (fun _ => .error ⟨.retryRequested 0, "no account"⟩) n = some j ∧
    (j.log.filterMap (·.retryDelay)).Pairwise (· ≤ ·) := by
  obtain ⟨n, j, hn, hlife, _, _, _, _, hsorted, _⟩ := retry_protocol registered
    (by norm_num [registered]) (by norm_num [registered])
    (fun _ => .error ⟨.retryRequested 0, "no account"⟩)
  exact ⟨n, j, hn, hlife, hsorted⟩

end DlqRetryEntrypointExecutor
end Statement.Consumer
