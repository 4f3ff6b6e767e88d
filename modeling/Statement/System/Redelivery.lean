import Statement.System.LedgerIntegrity

/-! A payment command that comes again after it has been applied.

The handler looks at the account's status before it looks for the operation. So
a redelivery is absorbed as long as the account is active, and fails once the
account is disabled or deleted, although its payment is in the ledger. -/
namespace Statement.System
open Domain Foundation Account Payment

/-- The ledger of the command's account has the command's row. -/
def AppliedOnce (d : Database) (e : CreatePayment) : Prop :=
  ∃ r ∈ d.ledgerOf e.accountId, r.operationId = e.id

theorem AppliedOnce.seen {d : Database} {e : CreatePayment} (h : AppliedOnce d e) :
    d.hasLedgerOperation e.accountId e.id = true := by
  obtain ⟨r, hr, hid⟩ := h
  exact List.any_eq_true.mpr ⟨r, hr, decide_eq_true hid⟩

/-- Only an account that is there has rows. -/
theorem Sound.findById_of_applied {E : Set PaymentMessage} {d : Database} (hs : Sound E d)
    {e : CreatePayment} (h : AppliedOnce d e) : ∃ account, d.findById e.accountId = some account := by
  obtain ⟨r, hr, _⟩ := h
  cases hfound : d.findById e.accountId with
  | none =>
    rw [hs.owned _ hfound] at hr
    cases hr
  | some account => exact ⟨account, rfl⟩

/-- **A redelivery is absorbed exactly while the account is active.** -/
theorem redelivery_absorbed_iff {T : Type} [DecidableEq T] (mac : VersionToken.Digest) (w : Service T)
    (h : Reachable mac Set.univ w) (e : CreatePayment) (happlied : AppliedOnce w.committed e)
    (now : Timestamp) :
    Job.onCreatePayment now w.committed e = .ok w.committed ↔
      ∃ account, w.committed.findById e.accountId = some account ∧ account.status = .active := by
  obtain ⟨account, hfound⟩ := h.sound.findById_of_applied happlied
  have hseen := happlied.seen
  by_cases hactive : account.status = .active
  · simp [Job.onCreatePayment, hfound, hactive, hseen]
  · simp [Job.onCreatePayment, hfound, hactive]

/-! ### A run -/

/-- An account takes a deposit and is disabled. -/
def disabledRun : List (Step Nat) :=
  let input : Input := ⟨5, []⟩
  let disable : CustomerAccountUpdate := .disabled
  [.begin 0 (.create .sample), .statement 0 input, .statement 0 input,
    .commit 0, .begin 1 (.payment openingDeposit.command), .statement 1 input, .statement 1 input,
    .statement 1 input, .statement 1 input, .commit 1, .begin 2 (.change ⟨1, .patch disable, 9⟩),
    .statement 2 input, .statement 2 input, .statement 2 input, .commit 2]

theorem disabledRun_enqueued (t : Nat) (e : CreatePayment)
    (ht : Action.begin t (Request.payment e) ∈ disabledRun) :
    ∃ m ∈ (Set.univ : Set PaymentMessage), m.command = e := by
  refine ⟨openingDeposit, Set.mem_univ _, ?_⟩
  simp only [disabledRun, List.mem_cons, Action.begin.injEq, Request.payment.injEq, reduceCtorEq,
    and_false, false_or, List.not_mem_nil, or_false] at ht
  exact ht.2.symm

theorem disabled_redelivery_fails : ∃ w : Service Nat, Reachable (fun _ => 0) Set.univ w ∧
    AppliedOnce w.committed openingDeposit.command ∧
    Job.onCreatePayment 9 w.committed openingDeposit.command = .error .notActive := by
  have hrun : ((initial Nat openingCustomer).run (service fun _ => 0) disabledRun).map (fun w =>
      (w.committed.hasLedgerOperation 1 7, (w.committed.findById 1).map (·.status))) =
      some (true, some .disabled) := by decide
  obtain ⟨w, hw, hfields⟩ := Option.map_eq_some_iff.mp hrun
  obtain ⟨hseen, hstatus⟩ := Prod.mk.inj hfields
  obtain ⟨account, hfound, hdisabled⟩ := Option.map_eq_some_iff.mp hstatus
  obtain ⟨r, hr, hid⟩ := List.any_eq_true.mp hseen
  refine ⟨w, ⟨openingCustomer, disabledRun, disabledRun_enqueued, hw⟩, ⟨r, hr, of_decide_eq_true hid⟩, ?_⟩
  rw [Job.onCreatePayment, show openingDeposit.command.accountId = 1 from rfl, hfound]
  exact if_pos (by rw [hdisabled]; decide)

/-- Before it is disabled, the account absorbs the redelivery. -/
theorem active_redelivery_absorbed : ∃ w : Service Nat, Reachable (fun _ => 0) Set.univ w ∧
    AppliedOnce w.committed openingDeposit.command ∧
    Job.onCreatePayment 9 w.committed openingDeposit.command = .ok w.committed := by
  have hrun : ((initial Nat openingCustomer).run (service fun _ => 0) openingRun).map (fun w =>
      (w.committed.hasLedgerOperation 1 7, (w.committed.findById 1).map (·.status))) =
      some (true, some .active) := by decide
  obtain ⟨w, hw, hfields⟩ := Option.map_eq_some_iff.mp hrun
  obtain ⟨hseen, hstatus⟩ := Prod.mk.inj hfields
  obtain ⟨account, hfound, hactive⟩ := Option.map_eq_some_iff.mp hstatus
  obtain ⟨r, hr, hid⟩ := List.any_eq_true.mp hseen
  have hreach : Reachable (fun _ => 0) Set.univ w :=
    ⟨openingCustomer, openingRun, openingRun_enqueued (Set.mem_univ _), hw⟩
  have happlied : AppliedOnce w.committed openingDeposit.command := ⟨r, hr, of_decide_eq_true hid⟩
  exact ⟨w, hreach, happlied,
    (redelivery_absorbed_iff _ w hreach _ happlied 9).mpr ⟨account, hfound, hactive⟩⟩

end Statement.System
