import Statement.System.Answers
import Statement.System.LedgerIntegrity

/-! Which accounts move.

A payment row is inserted under the lock on its account's row, on an account that
was active when the lock was taken, and stays so to the commit. A deleted account
is changed by nobody: no request is let through for it, and one that was let
through before finds its version gone. -/
namespace Statement.System
open Domain Foundation Account Payment

/-- What a commit can do to the ledger of an account. -/
inductive LedgerEffect (a : UUID) (d d' : Database) : Prop where
  | kept (hledger : d'.ledgerOf a = d.ledgerOf a)
  | opened (row : CustomerAccountLedger) (hledger : d'.ledgerOf a = d.ledgerOf a ++ [row])
      (htype : row.operationType = .create) (hnone : d.findById a = none)
  | moved (row : CustomerAccountLedger) (hledger : d'.ledgerOf a = d.ledgerOf a ++ [row])
      (account : CustomerAccount) (hfound : d.findById a = some account)
      (hactive : account.status = .active) (hkept : d'.findById a = some account)

theorem job_ledger {E : Set PaymentMessage} {H : Set Lock} {d d' : Database} {j : Job}
    (h : JobHolds E H d j) (hc : j.commit d = some d') (a : UUID) : LedgerEffect a d d' := by
  obtain ⟨e, phase⟩ := j
  rcases Job.commit_some hc with ⟨_, rfl⟩ | ⟨row, t, hp, hinsert, rfl⟩
  · exact .kept rfl
  · cases hp
    obtain ⟨_, _, haccount, _⟩ := flushed_row h.enqueued h.phase
    obtain ⟨⟨_, account, hfound, hactive⟩, _⟩ := h.phase
    have hrows := @Database.ledgerOf_insert d { d with customerAccountLedger := t } _ hinsert a
    by_cases ha : row.accountId = a
    · rw [if_pos ha] at hrows
      rw [haccount] at ha
      exact .moved row hrows account (ha ▸ hfound) hactive (ha ▸ hfound)
    · rw [if_neg ha, List.append_nil] at hrows
      exact .kept hrows

theorem create_ledger {H : Set Lock} {d d' : Database} {c : Create} (h : CreateHolds H d c)
    (hc : c.commit d = some d') (a : UUID) : LedgerEffect a d d' := by
  obtain ⟨r, phase⟩ := c
  obtain ⟨hp, accounts, ledger, _, hinsert, rfl⟩ := Create.commit_some hc
  cases hp
  have hclaimed : Claimed H d r := h
  have hrows := @Database.ledgerOf_insert d
    { d with customerAccount := accounts, customerAccountLedger := ledger } _ hinsert a
  by_cases ha : r.entityId = a
  · rw [if_pos (show r.openingRow.accountId = a from ha)] at hrows
    exact .opened r.openingRow hrows rfl (ha ▸ hclaimed.absent)
  · rw [if_neg (show ¬ r.openingRow.accountId = a from ha), List.append_nil] at hrows
    exact .kept hrows

theorem change_ledger {d d' : Database} {c : Change} (hc : c.commit d = some d') :
    d'.customerAccountLedger = d.customerAccountLedger := by
  rcases Change.commit_some hc with ⟨_, rfl⟩ | ⟨_, _, _, _, _, _, _, rfl⟩
  · rfl
  · rfl

theorem commit_ledger {mac : VersionToken.Digest} {E : Set PaymentMessage} {H : Set Lock}
    {d d' : Database} {l : Party} (h : PartyHolds mac E H d l) (hc : l.commit d = some d') (a : UUID) :
    LedgerEffect a d d' := by
  cases l with
  | payment j => exact job_ledger h hc a
  | create c => exact create_ledger h hc a
  | change c => exact .kept (Database.ledgerOf_congr (change_ledger hc) a)
  | verify v => exact .kept (Database.ledgerOf_congr (verifier_committed h hc).1.ledger a)

/-- No commit touches a deleted account. -/
theorem deleted_kept {mac : VersionToken.Digest} {E : Set PaymentMessage} {H : Set Lock}
    {d d' : Database} {l : Party} (h : PartyHolds mac E H d l) (hc : l.commit d = some d') {a : UUID}
    {row : CustomerAccount} (hfound : d.findById a = some row) (hdeleted : row.status = .deleted) :
    d'.findById a = some row ∧ d'.ledgerOf a = d.ledgerOf a := by
  constructor
  · rcases commit_effect h hc a with
      ⟨hrow, _⟩ | ⟨_, _, hnone, _⟩ | ⟨_, _, _, _, _, _, hrow⟩ | ⟨c, _, _, hadmitted, _, hread, _⟩
    · rw [hrow, hfound]
    · rw [hfound] at hnone
      cases hnone
    · rw [hrow, hfound]
    · obtain rfl : row = c.loaded := Option.some.inj (hfound.symm.trans hread)
      exact absurd hdeleted (ChangeRequest.letThrough_ok.mp hadmitted.letThrough).2.1
  · rcases commit_ledger h hc a with hledger | ⟨_, _, _, hnone⟩ | ⟨_, _, account, hfound', hactive, _⟩
    · exact hledger
    · rw [hfound] at hnone
      cases hnone
    · obtain rfl : row = account := Option.some.inj (hfound.symm.trans hfound')
      rw [hdeleted] at hactive
      cases hactive

/-- **Only active accounts move, and deletion is final.** -/
theorem movements_active {T : Type} [DecidableEq T] (mac : VersionToken.Digest) (w : Service T)
    (h : Reachable mac Set.univ w) :
    (∀ step w' a r, w.next (service mac) step = some w' → r ∈ w'.committed.ledgerOf a →
      r ∉ w.committed.ledgerOf a → r.operationType ≠ .create →
      ∃ account, w.committed.findById a = some account ∧ account.status = .active ∧
        w'.committed.findById a = some account) ∧
    ∀ a row, w.committed.findById a = some row → row.status = .deleted →
      ∀ as w', RunsFrom mac Set.univ w as w' →
        w'.committed.findById a = some row ∧ w'.committed.ledgerOf a = w.committed.ledgerOf a := by
  refine ⟨fun step w' a r hstep hr hnew hpayment => ?_, fun a row hfound hdeleted as w' hrun => ?_⟩
  · rcases World.next_committed hstep with hsame | ⟨l, _, hl, hc⟩
    · rw [hsame] at hr
      exact absurd hr hnew
    · rcases commit_ledger (h.valid.holds _ l hl) hc a with
        hledger | ⟨row, hledger, htype, _⟩ | ⟨row, hledger, account, hfound, hactive, hkept⟩
      · rw [hledger] at hr
        exact absurd hr hnew
      · rw [hledger] at hr
        rcases List.mem_append.mp hr with hr | hr
        · exact absurd hr hnew
        · rw [List.mem_singleton.mp hr] at hpayment
          exact absurd htype hpayment
      · exact ⟨account, hfound, hactive, hkept⟩
  · refine (contract mac Set.univ).run_keeps
      (fun d => d.findById a = some row ∧ d.ledgerOf a = w.committed.ledgerOf a) ?_ h.valid as hrun.allowed
      hrun.2 ⟨hfound, rfl⟩
    intro H d l d' _ hl hc hd
    obtain ⟨hkept, hledger⟩ := deleted_kept hl hc hd.1 hdeleted
    exact ⟨hkept, hledger.trans hd.2⟩

/-! ### A run -/

/-- An account takes a deposit while a request to delete it has read it already;
the deletion commits, and a second deposit finds the account deleted. -/
def deletingRun : List (Step Nat) :=
  let input : Input := ⟨5, []⟩
  [.begin 0 (.create .sample), .statement 0 input, .statement 0 input,
    .commit 0, .begin 1 (.payment openingDeposit.command),
    .begin 2 (.change ⟨1, .delete firstToken length_firstToken, 9⟩), .statement 2 input,
    .statement 1 input, .statement 1 input, .statement 1 input, .statement 1 input, .commit 1,
    .statement 2 input, .statement 2 input, .commit 2]

theorem deletingRun_enqueued (t : Nat) (e : CreatePayment)
    (ht : Action.begin t (Request.payment e) ∈ deletingRun) :
    ∃ m ∈ (Set.univ : Set PaymentMessage), m.command = e := by
  refine ⟨openingDeposit, Set.mem_univ _, ?_⟩
  simp only [deletingRun, List.mem_cons, Action.begin.injEq, Request.payment.injEq, reduceCtorEq,
    and_false, false_or, List.not_mem_nil, or_false] at ht
  exact ht.2.symm

theorem deleted_account_stays : ∃ w : Service Nat, ∃ row, w.committed.findById 1 = some row ∧
    row.status = .deleted ∧ (w.committed.ledgerOf 1).length = 2 ∧
    ∀ as w', RunsFrom (fun _ => 0) Set.univ w as w' → w'.committed.findById 1 = some row ∧
      w'.committed.ledgerOf 1 = w.committed.ledgerOf 1 := by
  have hrun : ((initial Nat openingCustomer).run (service fun _ => 0) deletingRun).map (fun w =>
      ((w.committed.findById 1).map (·.status), (w.committed.ledgerOf 1).length)) =
      some (some .deleted, 2) := by decide
  obtain ⟨w, hw, hfields⟩ := Option.map_eq_some_iff.mp hrun
  obtain ⟨hstatus, hlength⟩ := Prod.mk.inj hfields
  obtain ⟨row, hfound, hdeleted⟩ := Option.map_eq_some_iff.mp hstatus
  have hreach : Reachable (fun _ => 0) Set.univ w :=
    ⟨openingCustomer, deletingRun, deletingRun_enqueued, hw⟩
  exact ⟨w, row, hfound, hdeleted, hlength, (movements_active _ w hreach).2 1 row hfound hdeleted⟩

end Statement.System
