import Statement.Consumer.Executor
import Statement.Domain.UuidText
import Statement.Payment.Command

/-! Payment events, from their delivery to the end of their jobs.

The subscriber enqueues the event's command and lets every exception out. The
queue refuses a second live job with a key, so no payment ever has two. But the
refusal is an exception as any other: an event that comes again while its job is
queued or picked is rejected to the dead-letter exchange. -/
namespace Statement.Subscriber
open Domain Payment Consumer

inductive JobStatus where
  | queued | picked | successful
  /-- Held, as `on_failure` says. -/
  | failed
  deriving DecidableEq

structure PaymentJob where
  command : CreatePayment
  attempts : Nat
  status : JobStatus
  deriving DecidableEq

namespace PaymentJob

/-- Live jobs hold their dedupe key. -/
def Live (j : PaymentJob) : Prop := j.status = .queued ∨ j.status = .picked

instance (j : PaymentJob) : Decidable j.Live := inferInstanceAs (Decidable (_ ∨ _))

/-- The job after a run of its handler that ended as `outcome` says. -/
def settle (j : PaymentJob) (outcome : Outcome) : PaymentJob :=
  match (DlqRetryEntrypointExecutor.registered.execute j.attempts outcome).ending with
  | .ok _ => { j with status := .successful }
  | .error ⟨.retryRequested _, _⟩ => { j with attempts := j.attempts + 1, status := .queued }
  | .error _ => { j with status := .failed }

@[simp] theorem settle_command (j : PaymentJob) (outcome : Outcome) :
    (j.settle outcome).command = j.command := by
  unfold settle
  split <;> rfl

end PaymentJob

/-- Raised by the queue's unique index on the keys of live jobs. -/
inductive EnqueueFailure where
  | duplicateJob
  deriving DecidableEq

/-- The jobs, and the deliveries by their ends. -/
structure Intake where
  jobs : List PaymentJob
  acknowledged : List PaymentMessage
  deadLettered : List PaymentMessage

inductive IntakeStep where
  | deliver (m : PaymentMessage)
  /-- A worker picks a live job; one that was picked before may have lost its worker. -/
  | pick (i : Nat)
  /-- The run of a picked job ends. -/
  | settle (i : Nat) (outcome : Outcome)

/-- `JobEnqueuer.enqueue`. With `begun`, the connection has begun a transaction,
which is rolled back when its session is closed; otherwise the insert is effective
at once. -/
def enqueue (begun : Bool) (jobs : List PaymentJob) (command : CreatePayment) :
    Except EnqueueFailure (List PaymentJob) :=
  if ∃ j ∈ jobs, j.Live ∧ j.command.dedupeKey = command.dedupeKey then .error .duplicateJob
  else .ok (if begun then jobs else jobs ++ [⟨command, 0, .queued⟩])

namespace Intake

def start : Intake := ⟨[], [], []⟩

/-- `on_payment_deposited` and `on_payment_withdrawn`, and what the broker does
with the message. -/
def deliver (begun : Bool) (s : Intake) (m : PaymentMessage) : Intake :=
  match enqueue begun s.jobs m.command with
  | .ok jobs => { s with jobs, acknowledged := s.acknowledged ++ [m] }
  | .error _ => { s with deadLettered := s.deadLettered ++ [m] }

def next (begun : Bool) (s : Intake) : IntakeStep → Option Intake
  | .deliver m => some (s.deliver begun m)
  | .pick i => do
    let j ← s.jobs[i]?
    if j.Live then some { s with jobs := s.jobs.set i { j with status := .picked } } else none
  | .settle i outcome => do
    let j ← s.jobs[i]?
    if j.status = .picked then some { s with jobs := s.jobs.set i (j.settle outcome) } else none

def run (begun : Bool) (s : Intake) : List IntakeStep → Option Intake
  | [] => some s
  | step :: rest => (s.next begun step).bind fun s' => run begun s' rest

/-- The payment has a live job. -/
def HasLive (s : Intake) (paymentId : UUID) : Prop := ∃ j ∈ s.jobs, j.Live ∧ j.command.id = paymentId

def AtMostOneLive (s : Intake) : Prop :=
  s.jobs.Pairwise fun j k => j.Live → k.Live → j.command.id ≠ k.command.id

/-- No event comes while its payment has a live job. -/
def Quiet (begun : Bool) (s : Intake) : List IntakeStep → Prop
  | [] => True
  | step :: rest => (∀ m, step = .deliver m → ¬ s.HasLive m.event.id) ∧
      ∀ s', s.next begun step = some s' → Quiet begun s' rest

end Intake

theorem dedupeKey_inj {c c' : CreatePayment} : c.dedupeKey = c'.dedupeKey ↔ c.id = c'.id := by
  constructor
  · intro h
    exact UUID.str_inj (String.append_right_inj _ |>.mp h)
  · intro h
    rw [CreatePayment.dedupeKey, CreatePayment.dedupeKey, h]

theorem duplicate_iff {s : Intake} {m : PaymentMessage} :
    (∃ j ∈ s.jobs, j.Live ∧ j.command.dedupeKey = m.command.dedupeKey) ↔ s.HasLive m.event.id := by
  simp only [Intake.HasLive, dedupeKey_inj, PaymentMessage.command_id]

namespace Intake
variable {begun : Bool} {s s' : Intake}

/-- A delivery is rejected exactly while its payment has a live job. -/
theorem deliver_cases (begun : Bool) (s : Intake) (m : PaymentMessage) :
    (s.HasLive m.event.id ∧ s.deliver begun m = { s with deadLettered := s.deadLettered ++ [m] }) ∨
      (¬ s.HasLive m.event.id ∧ ∃ jobs, (jobs = s.jobs ∨ jobs = s.jobs ++ [⟨m.command, 0, .queued⟩]) ∧
        s.deliver begun m = { s with jobs, acknowledged := s.acknowledged ++ [m] }) := by
  by_cases hlive : s.HasLive m.event.id
  · exact .inl ⟨hlive, by simp only [deliver, enqueue, if_pos (duplicate_iff.mpr hlive)]⟩
  · have hfree := mt duplicate_iff.mp hlive
    cases begun with
    | true => exact .inr ⟨hlive, _, .inl rfl, by simp only [deliver, enqueue, if_neg hfree, if_true]⟩
    | false =>
      exact .inr ⟨hlive, _, .inr rfl, by
        simp only [deliver, enqueue, if_neg hfree, Bool.false_eq_true, if_false]⟩

/-- The steps that are no delivery change one job, and make none live again. -/
theorem next_job {step : IntakeStep} (hstep : ∀ m, step ≠ .deliver m)
    (h : s.next begun step = some s') : ∃ i j k, s.jobs[i]? = some j ∧ s' = { s with jobs := s.jobs.set i k } ∧
      k.command = j.command ∧ (k.Live → j.Live) := by
  cases step with
  | deliver m => exact absurd rfl (hstep m)
  | pick i =>
    simp only [next, Option.bind_eq_bind, Option.bind_eq_some_iff] at h
    obtain ⟨j, hj, h⟩ := h
    split at h
    · rename_i hlive
      cases h
      exact ⟨i, j, _, hj, rfl, rfl, fun _ => hlive⟩
    · cases h
  | settle i outcome =>
    simp only [next, Option.bind_eq_bind, Option.bind_eq_some_iff] at h
    obtain ⟨j, hj, h⟩ := h
    split at h
    · rename_i hpicked
      cases h
      exact ⟨i, j, _, hj, rfl, j.settle_command outcome, fun _ => .inr hpicked⟩
    · cases h

/-- A list stays pairwise related when a member is replaced by one with its relations. -/
theorem pairwise_set {α : Type} {R : α → α → Prop} {l : List α} (h : l.Pairwise R) {i : Nat} {a b : α}
    (hi : l[i]? = some a) (hleft : ∀ x, R x a → R x b) (hright : ∀ x, R a x → R b x) :
    (l.set i b).Pairwise R := by
  induction l generalizing i with
  | nil => exact .nil
  | cons c l ih =>
    obtain ⟨hc, hl⟩ := List.pairwise_cons.mp h
    cases i with
    | zero =>
      obtain rfl : c = a := Option.some.inj hi
      exact List.pairwise_cons.mpr ⟨fun x hx => hright x (hc x hx), hl⟩
    | succ i =>
      refine List.pairwise_cons.mpr ⟨fun x hx => ?_, ih hl hi⟩
      rcases List.mem_or_eq_of_mem_set hx with hx | rfl
      · exact hc x hx
      · exact hleft c (hc a (List.mem_of_getElem? hi))

theorem AtMostOneLive.next (hs : s.AtMostOneLive) {step : IntakeStep} (h : s.next begun step = some s') :
    s'.AtMostOneLive := by
  by_cases hstep : ∃ m, step = .deliver m
  · obtain ⟨m, rfl⟩ := hstep
    cases h
    rcases s.deliver_cases begun m with ⟨_, heq⟩ | ⟨hfree, jobs, rfl | rfl, heq⟩
    · rw [heq]
      exact hs
    · rw [heq]
      exact hs
    · rw [heq]
      refine List.pairwise_append.mpr ⟨hs, List.pairwise_singleton _ _, fun j hj k hk hlive _ hid => ?_⟩
      rw [List.mem_singleton.mp hk] at hid
      exact hfree ⟨j, hj, hlive, hid.trans m.command_id⟩
  · obtain ⟨i, j, k, hj, rfl, hcommand, hlive⟩ := next_job (fun m he => hstep ⟨m, he⟩) h
    refine pairwise_set hs hj (fun x hx hxl hkl => ?_) fun x hx hkl hxl => ?_
    · rw [hcommand]
      exact hx hxl (hlive hkl)
    · rw [hcommand]
      exact hx (hlive hkl) hxl

theorem AtMostOneLive.run (hs : s.AtMostOneLive) {steps : List IntakeStep}
    (h : s.run begun steps = some s') : s'.AtMostOneLive := by
  induction steps generalizing s with
  | nil =>
    cases h
    exact hs
  | cons step rest ih =>
    obtain ⟨s₁, h₁, hrest⟩ := Option.bind_eq_some_iff.mp h
    exact ih (hs.next h₁) hrest

/-- What a step adds to the dead letters. -/
theorem next_deadLettered {step : IntakeStep} (h : s.next begun step = some s') :
    ∃ rejected, s'.deadLettered = s.deadLettered ++ rejected ∧
      (rejected = [] ↔ ∀ m, step = .deliver m → ¬ s.HasLive m.event.id) := by
  by_cases hstep : ∃ m, step = .deliver m
  · obtain ⟨m, rfl⟩ := hstep
    cases h
    rcases s.deliver_cases begun m with ⟨hlive, heq⟩ | ⟨hfree, jobs, _, heq⟩
    · refine ⟨[m], by rw [heq], fun hnil => (nomatch hnil), fun hquiet => absurd hlive (hquiet m rfl)⟩
    · refine ⟨[], by rw [heq, List.append_nil], fun _ m' hm' => ?_, fun _ => rfl⟩
      cases hm'
      exact hfree
  · obtain ⟨i, j, k, _, rfl, _, _⟩ := next_job (fun m he => hstep ⟨m, he⟩) h
    exact ⟨[], (List.append_nil _).symm, fun _ m hm => absurd ⟨m, hm⟩ hstep, fun _ => rfl⟩

theorem run_deadLettered {steps : List IntakeStep} (h : s.run begun steps = some s') :
    ∃ rejected, s'.deadLettered = s.deadLettered ++ rejected ∧ (rejected = [] ↔ Quiet begun s steps) := by
  induction steps generalizing s with
  | nil =>
    cases h
    exact ⟨[], (List.append_nil _).symm, fun _ => trivial, fun _ => rfl⟩
  | cons step rest ih =>
    obtain ⟨s₁, h₁, hrest⟩ := Option.bind_eq_some_iff.mp h
    obtain ⟨first, hfirst, hfirst_iff⟩ := next_deadLettered h₁
    obtain ⟨others, hothers, hothers_iff⟩ := ih hrest
    refine ⟨first ++ others, by rw [hothers, hfirst, List.append_assoc], ?_⟩
    rw [List.append_eq_nil_iff, hfirst_iff, hothers_iff, Quiet]
    refine and_congr_right fun _ => ⟨fun hquiet s₂ h₂ => ?_, fun hquiet => hquiet s₁ h₁⟩
    cases h₁.symm.trans h₂
    exact hquiet

/-- **No payment ever has two live jobs, and a run dead-letters nothing exactly if
no event comes while its payment has one.** -/
theorem deliveries_acknowledged_iff (begun : Bool) (steps : List IntakeStep) (s : Intake)
    (h : start.run begun steps = some s) :
    s.AtMostOneLive ∧ (s.deadLettered = [] ↔ Quiet begun start steps) := by
  obtain ⟨rejected, heq, hiff⟩ := run_deadLettered h
  rw [heq]
  exact ⟨AtMostOneLive.run (s := start) List.Pairwise.nil h, hiff⟩

/-! ### Two runs -/

def payment : PaymentMessage := .sample

/-- The event comes again while its job waits. -/
theorem queued_redelivery_rejected : (start.run false [.deliver payment, .deliver payment]).map
    (fun s => (s.acknowledged.length, s.deadLettered.length)) = some (1, 1) := by decide

/-- The event comes again after its job, on the second attempt, is done. -/
def lateRun : List IntakeStep :=
  [.deliver payment, .pick 0, .settle 0 (.error ⟨.retryRequested 0, "Account 1 is not found"⟩), .pick 0,
    .settle 0 (.ok ()), .deliver payment]

theorem lateRun_quiet : Quiet false start lateRun := by
  have hrun : (start.run false lateRun).map (·.deadLettered.length) = some 0 := by decide
  obtain ⟨s, hs, hlength⟩ := Option.map_eq_some_iff.mp hrun
  exact (deliveries_acknowledged_iff false lateRun s hs).2.mp (List.length_eq_zero_iff.mp hlength)

end Intake

end Statement.Subscriber
