import Statement.Domain.Database
import Statement.Domain.Lock
import Statement.Payment.Command

/-! A payment job: `on_create_payment`, one statement at a time.

One transaction locks the account's row, looks for the operation, reads the last
ledger entry and inserts the one that follows it. Every other end is an
exception, which rolls the transaction back, or the early return on a row that
is there already. -/
namespace Statement.Payment
open Domain Foundation

/-- The exceptions that leave the handler. -/
inductive JobFailure where
  /-- `RetryRequested`. -/
  | unknownAccount
  /-- `TerminalJobError`, as the two below. -/
  | notActive
  | ledgerNotFound
  | insufficientBalance (balanceAfter : Int)
  /-- Raised by the flush. -/
  | numericOverflow
  | integrityError
  deriving DecidableEq

inductive JobPhase where
  | begun
  /-- The row is locked and the account active. -/
  | locked
  /-- No row of the account has the operation. -/
  | unseen
  /-- The entry to follow is read, and the balance suffices. -/
  | following (previous : CustomerAccountLedger)
  /-- The row is inserted. -/
  | flushed (row : CustomerAccountLedger)
  /-- `return None` on a duplicate. -/
  | duplicate
  | raised (f : JobFailure)
  deriving DecidableEq

structure Job where
  event : CreatePayment
  phase : JobPhase
  deriving DecidableEq

namespace Job

/-- The row the flush inserts. -/
def entry (event : CreatePayment) (previous : CustomerAccountLedger) (now : Timestamp) : LedgerEntry :=
  .follow previous event.signedAmount event.type event.id none now

/-- What the inserted row says. -/
theorem entry_store {event : CreatePayment} {previous row : CustomerAccountLedger} {now : Timestamp}
    (h : (entry event previous now).store = some row) :
    row.accountId = previous.accountId ∧ row.no = previous.no + 1 ∧
      row.amount.cents = event.signedAmount ∧
      row.balance.cents = Decimal.add previous.balance.cents event.signedAmount ∧
      row.operationType = event.type ∧ row.operationId = event.id := LedgerEntry.store_some h

def statement (now : Timestamp) (d : Database) : Job → Option (List Lock × Job)
  | ⟨e, .begun⟩ =>
    -- `lock_by_id` waits for the row and then reads its latest version
    match d.findById e.accountId with
    | none => some ([], ⟨e, .raised .unknownAccount⟩)
    | some account =>
      some (Lock.forUpdate e.accountId,
        ⟨e, if account.status = .active then .locked else .raised .notActive⟩)
  | ⟨e, .locked⟩ =>
    some ([], ⟨e, if d.hasLedgerOperation e.accountId e.id then .duplicate else .unseen⟩)
  | ⟨e, .unseen⟩ =>
    match d.findLastLedgerEntry e.accountId with
    | none => some ([], ⟨e, .raised .ledgerNotFound⟩)
    | some previous =>
      let balanceAfter := Decimal.add previous.balance.cents e.signedAmount
      some ([], ⟨e, if balanceAfter < 0 then .raised (.insufficientBalance balanceAfter)
        else .following previous⟩)
  | ⟨e, .following previous⟩ =>
    match (entry e previous now).store with
    | none => some ([], ⟨e, .raised .numericOverflow⟩)
    | some row =>
      if d.customerAccountLedger.conflicts row then some ([], ⟨e, .raised .integrityError⟩)
      else some ([.ledgerKey row.accountId row.no, .operationKey row.accountId row.operationId],
        ⟨e, .flushed row⟩)
  | _ => none

def commit (d : Database) : Job → Option Database
  | ⟨_, .flushed row⟩ => do
    let t ← d.customerAccountLedger.insert row
    some { d with customerAccountLedger := t }
  | ⟨_, .duplicate⟩ => some d
  | _ => none

/-- A duplicate commits nothing; another payment adds its row. -/
theorem commit_some {d d' : Database} {j : Job} (h : j.commit d = some d') :
    (j.phase = .duplicate ∧ d' = d) ∨ ∃ row t, j.phase = .flushed row ∧
      d.customerAccountLedger.insert row = some t ∧ d' = { d with customerAccountLedger := t } := by
  obtain ⟨e, phase⟩ := j
  cases phase with
  | duplicate =>
    cases h
    exact .inl ⟨rfl, rfl⟩
  | flushed row =>
    simp only [commit, Option.bind_eq_bind, Option.bind_eq_some_iff, Option.some.injEq] at h
    obtain ⟨t, ht, hd'⟩ := h
    exact .inr ⟨row, t, rfl, ht, hd'.symm⟩
  | begun => cases h
  | locked => cases h
  | unseen => cases h
  | following previous => cases h
  | raised f => cases h

/-- `on_create_payment` from start to end, on a database that nobody else touches. -/
def onCreatePayment (now : Timestamp) (d : Database) (e : CreatePayment) : Except JobFailure Database :=
  match d.findById e.accountId with
  | none => .error .unknownAccount
  | some account =>
    if account.status ≠ .active then .error .notActive
    else if d.hasLedgerOperation e.accountId e.id then .ok d
    else match d.findLastLedgerEntry e.accountId with
      | none => .error .ledgerNotFound
      | some previous =>
        let balanceAfter := Decimal.add previous.balance.cents e.signedAmount
        if balanceAfter < 0 then .error (.insufficientBalance balanceAfter)
        else match (entry e previous now).store with
          | none => .error .numericOverflow
          | some row => match d.customerAccountLedger.insert row with
            | none => .error .integrityError
            | some ledger => .ok { d with customerAccountLedger := ledger }

theorem onCreatePayment_seen {now : Timestamp} {d : Database} {e : CreatePayment} {account : CustomerAccount}
    (hfound : d.findById e.accountId = some account) (hactive : account.status = .active)
    (hseen : d.hasLedgerOperation e.accountId e.id = true) : onCreatePayment now d e = .ok d := by
  simp [onCreatePayment, hfound, hactive, hseen]

theorem onCreatePayment_stored {now : Timestamp} {d : Database} {e : CreatePayment}
    {account : CustomerAccount} {previous row : CustomerAccountLedger}
    {t : Table CustomerAccountLedger CustomerAccountLedger.clash}
    (hfound : d.findById e.accountId = some account) (hactive : account.status = .active)
    (hunseen : d.hasLedgerOperation e.accountId e.id = false)
    (hlast : d.findLastLedgerEntry e.accountId = some previous)
    (hnonneg : 0 ≤ Decimal.add previous.balance.cents e.signedAmount)
    (hrow : (entry e previous now).store = some row)
    (ht : d.customerAccountLedger.insert row = some t) :
    onCreatePayment now d e = .ok { d with customerAccountLedger := t } := by
  simp [onCreatePayment, hfound, hactive, hunseen, hlast, Int.not_lt.mpr hnonneg, hrow, ht]

/-- The handler returns on an active account only: with a row of the operation there
already, or with the row that follows the last one inserted. -/
theorem onCreatePayment_ok {now : Timestamp} {d d' : Database} {e : CreatePayment}
    (h : onCreatePayment now d e = .ok d') :
    (∃ account, d.findById e.accountId = some account ∧ account.status = .active) ∧
      ((d.hasLedgerOperation e.accountId e.id = true ∧ d' = d) ∨
        ∃ previous row t, d.hasLedgerOperation e.accountId e.id = false ∧
          d.findLastLedgerEntry e.accountId = some previous ∧
          0 ≤ Decimal.add previous.balance.cents e.signedAmount ∧
          (entry e previous now).store = some row ∧ d.customerAccountLedger.insert row = some t ∧
          d' = { d with customerAccountLedger := t }) := by
  cases hfound : d.findById e.accountId with
  | none => simp [onCreatePayment, hfound] at h
  | some account =>
    by_cases hactive : account.status = .active
    · refine ⟨⟨account, rfl, hactive⟩, ?_⟩
      simp only [onCreatePayment, hfound, hactive, ne_eq, not_true, if_false] at h
      cases hseen : d.hasLedgerOperation e.accountId e.id with
      | true =>
        rw [hseen, if_pos rfl] at h
        cases h
        exact .inl ⟨rfl, rfl⟩
      | false =>
        rw [hseen, if_neg Bool.false_ne_true] at h
        split at h
        · cases h
        · rename_i previous hlast
          split at h
          · cases h
          · rename_i hnonneg
            split at h
            · cases h
            · rename_i row hrow
              split at h
              · cases h
              · rename_i t ht
                cases h
                exact .inr ⟨previous, row, t, rfl, hlast, by omega, hrow, ht, rfl⟩
    · simp [onCreatePayment, hfound, hactive] at h

/-- One statement of a job that runs alone. -/
def Step (now : Timestamp) (d : Database) (j j' : Job) : Prop := ∃ ks, j.statement now d = some (ks, j')

/-- The handler is its statements: they end in the exception that it raises, or in
a commit of what it returns. -/
theorem onCreatePayment_steps (now : Timestamp) (d : Database) (e : CreatePayment) :
    ∃ j, Relation.ReflTransGen (Step now d) ⟨e, .begun⟩ j ∧
      match onCreatePayment now d e with
      | .error f => j.phase = .raised f
      | .ok d' => j.commit d = some d' := by
  cases hfound : d.findById e.accountId with
  | none =>
    refine ⟨⟨e, .raised .unknownAccount⟩, .single ⟨[], by simp only [statement, hfound]⟩, ?_⟩
    simp only [onCreatePayment, hfound]
  | some account =>
    by_cases hactive : account.status = .active
    · have hlocked : Relation.ReflTransGen (Step now d) ⟨e, .begun⟩ ⟨e, .locked⟩ :=
        .single ⟨Lock.forUpdate e.accountId, by simp only [statement, hfound, hactive, if_true]⟩
      cases hseen : d.hasLedgerOperation e.accountId e.id with
      | true =>
        refine ⟨⟨e, .duplicate⟩, hlocked.tail ⟨[], by simp only [statement, hseen, if_true]⟩, ?_⟩
        simp only [onCreatePayment, hfound, hactive, hseen, ne_eq, not_true, if_false, if_true]
        rfl
      | false =>
        have hunseen := hlocked.tail (c := ⟨e, .unseen⟩) ⟨[], by simp [statement, hseen]⟩
        simp only [onCreatePayment, hfound, hactive, hseen, ne_eq, not_true, if_false,
          Bool.false_eq_true]
        cases hlast : d.findLastLedgerEntry e.accountId with
        | none =>
          exact ⟨⟨e, .raised .ledgerNotFound⟩, hunseen.tail ⟨[], by simp only [statement, hlast]⟩, rfl⟩
        | some previous =>
          by_cases hneg : Decimal.add previous.balance.cents e.signedAmount < 0
          · refine ⟨⟨e, .raised (.insufficientBalance (Decimal.add previous.balance.cents e.signedAmount))⟩,
              hunseen.tail ⟨[], by simp only [statement, hlast, hneg, if_true]⟩, ?_⟩
            simp only [hneg, if_true]
          · have hfollowing := hunseen.tail (c := ⟨e, .following previous⟩)
              ⟨[], by simp only [statement, hlast, hneg, if_false]⟩
            simp only [hneg, if_false]
            cases hstore : (entry e previous now).store with
            | none =>
              exact ⟨⟨e, .raised .numericOverflow⟩,
                hfollowing.tail ⟨[], by simp only [statement, hstore]⟩, rfl⟩
            | some row =>
              by_cases hconflict : d.customerAccountLedger.conflicts row
              · refine ⟨⟨e, .raised .integrityError⟩, hfollowing.tail ⟨[], ?_⟩, ?_⟩
                · simp only [statement, hstore, if_pos hconflict]
                · simp only [Table.insert, dif_pos hconflict]
              · obtain ⟨ledger, hledger, _⟩ := Table.insert_of_free hconflict
                refine ⟨⟨e, .flushed row⟩, hfollowing.tail
                  ⟨[.ledgerKey row.accountId row.no, .operationKey row.accountId row.operationId], ?_⟩, ?_⟩
                · simp only [statement, hstore, if_neg hconflict]
                · simp [hledger, commit]
    · refine ⟨⟨e, .raised .notActive⟩,
        .single ⟨Lock.forUpdate e.accountId, by simp only [statement, hfound, hactive, if_false]⟩, ?_⟩
      simp only [onCreatePayment, hfound, hactive, ne_eq, not_false_eq_true, if_true]

end Job
end Statement.Payment
