import Statement.Domain.Lock
import Statement.Verification.Batch

/-! A verifier run: `verify_customer_account_ledger`.

One transaction tries the schedule's advisory lock, runs the batch query and
writes what it found, one `INSERT … ON CONFLICT DO NOTHING` a time. The query may
raise. An incident's expected balance is computed outside the database and may not fit
its column; the insert then raises. Either way the whole run rolls back. -/
namespace Statement.Domain.Database

/-- The identity column draws an id that no row has. -/
def nextDiscrepancyId (d : Database) : Nat :=
  (d.customerAccountLedgerDiscrepancy.rows.map (·.discrepancyId)).foldr max 0 + 1

def addCheckpoint (d : Database) (accountId : UUID) (throughNo : Int) (balance : Numeric)
    (now : Timestamp) : Database :=
  { d with customerAccountLedgerVerified :=
      d.customerAccountLedgerVerified.insertOrIgnore ⟨accountId, throughNo, balance, now⟩ }

end Statement.Domain.Database

namespace Statement.Verification
open Domain Foundation

namespace CustomerAccountVerification

/-- The expected balance on its way into its column; `none` is the overflow. -/
def storedExpectedBalance (v : CustomerAccountVerification) : Option (Option Numeric) :=
  match v.expectedBalance with
  | none => some none
  | some e => (Numeric.store e).map some

end CustomerAccountVerification

/-- `none` is an exception: no break to record, or an overflow. -/
def recordDiscrepancy (v : CustomerAccountVerification) (now : Timestamp) (d : Database) :
    Option Database :=
  match v.breakNo, v.breakKind with
  | some no, some kind => do
    let expectedBalance ← v.storedExpectedBalance
    let incident : CustomerAccountLedgerDiscrepancy :=
      { discrepancyId := d.nextDiscrepancyId, accountId := v.accountId, no, kind
        prevNo := v.breakPrevNo.getD 0, expectedBalance, actualBalance := v.breakBalance.getD .zero
        detectedAt := now, resolvedAt := none, resolvedBy := none }
    some { d with customerAccountLedgerDiscrepancy :=
      d.customerAccountLedgerDiscrepancy.insertOrIgnore incident }
  | _, _ => none

def recordVerified (v : CustomerAccountVerification) (now : Timestamp) (d : Database) : Database :=
  d.addCheckpoint v.accountId v.lastGoodNo v.lastGoodBalance now

inductive Write where
  | discrepancy (v : CustomerAccountVerification)
  | verified (v : CustomerAccountVerification)
  deriving DecidableEq

namespace Write

def apply (now : Timestamp) (d : Database) : Write → Option Database
  | .discrepancy v => recordDiscrepancy v now d
  | .verified v => some (recordVerified v now d)

/-- The unique entry that an insert claims, and its foreign key's lock on the account,
unless the entry is taken and nothing is inserted. -/
def locks (d : Database) : Write → List Lock
  | .discrepancy v =>
    if (d.findOpenDiscrepancy v.accountId).isSome then []
    else [.openDiscrepancyKey v.accountId, .accountRowShare v.accountId]
  | .verified v =>
    if d.customerAccountLedgerVerified.conflicts ⟨v.accountId, v.lastGoodNo, v.lastGoodBalance, 0⟩ then []
    else [.verifiedKey v.accountId v.lastGoodNo, .accountRowShare v.accountId]

end Write

/-- What the body of the loop over the batch writes. -/
def writes (v : CustomerAccountVerification) : List Write :=
  (if v.breakKind.isSome then [.discrepancy v] else []) ++
    if v.shouldCheckpoint then [.verified v] else []

def record (clock : Write → Timestamp) (d : Database) (v : CustomerAccountVerification) :
    Option Database :=
  (writes v).foldlM (fun d w => w.apply (clock w) d) d

/-- A whole run on its own: each write at its own time. -/
def verifyCustomerAccountLedger (p : BatchParams) (scan : List CustomerAccount)
    (clock : Write → Timestamp) (d : Database) : Option Database :=
  (nextBatch d p scan).bind fun batch => batch.foldlM (record clock) d

/-! ### One statement at a time -/

structure VerifierRequest where
  scheduleId : Nat
  accountsPerRun : Nat
  rowsPerAccount : Nat
  maxCheckpointAge : Timestamp

def VerifierRequest.params (r : VerifierRequest) (now : Timestamp) : BatchParams :=
  ⟨r.accountsPerRun, r.rowsPerAccount, r.maxCheckpointAge, now⟩

inductive VerifierPhase where
  | begun
  | locked
  /-- Another run holds the lock. -/
  | skipped
  /-- The batch is read from `snapshot`; `done` is written and `todo` is not. -/
  | writing (snapshot : Database) (done : List (Write × Timestamp)) (todo : List Write)
  | raised

structure Verifier where
  request : VerifierRequest
  phase : VerifierPhase

namespace Verifier

def applyAll (done : List (Write × Timestamp)) (d : Database) : Option Database :=
  done.foldlM (fun d w => w.1.apply w.2 d) d

/-- `scan` is the order in which the query reads the account table. -/
def statement (now : Timestamp) (scan : List CustomerAccount) (d : Database) (free : Lock → Bool) :
    Verifier → Option (List Lock × Verifier)
  | ⟨r, .begun⟩ =>
    if free (.advisory r.scheduleId) then some ([.advisory r.scheduleId], ⟨r, .locked⟩)
    else some ([], ⟨r, .skipped⟩)
  | ⟨r, .locked⟩ =>
    if scan.Perm d.customerAccount.rows then
      some ([], ⟨r, match nextBatch d (r.params now) scan with
        | none => .raised
        | some batch => .writing d [] (batch.flatMap writes)⟩)
    else none
  | ⟨r, .writing snapshot done (w :: todo)⟩ => do
    let d ← applyAll done d
    match w.apply now d with
    | none => some ([], ⟨r, .raised⟩)
    | some _ => some (w.locks d, ⟨r, .writing snapshot (done ++ [(w, now)]) todo⟩)
  | _ => none

/-- What a statement does: the locks it takes and the phase it leaves. -/
inductive Advances (now : Timestamp) (scan : List CustomerAccount) (d : Database) (free : Lock → Bool)
    (r : VerifierRequest) : VerifierPhase → List Lock → VerifierPhase → Prop where
  | locked (hfree : free (.advisory r.scheduleId) = true) :
      Advances now scan d free r .begun [.advisory r.scheduleId] .locked
  | skipped (htaken : free (.advisory r.scheduleId) ≠ true) : Advances now scan d free r .begun [] .skipped
  | read (hscan : scan.Perm d.customerAccount.rows) (hfree : raises d (r.params now) scan = false) :
      Advances now scan d free r .locked []
        (.writing d [] ((finalSelect d (r.params now) scan).flatMap writes))
  | outOfRange (hraises : raises d (r.params now) scan = true) : Advances now scan d free r .locked [] .raised
  | refused {snapshot d₁ : Database} {done : List (Write × Timestamp)} {w : Write} {todo : List Write}
      (hdone : applyAll done d = some d₁) (hw : w.apply now d₁ = none) :
      Advances now scan d free r (.writing snapshot done (w :: todo)) [] .raised
  | written {snapshot d₁ d₂ : Database} {done : List (Write × Timestamp)} {w : Write} {todo : List Write}
      (hdone : applyAll done d = some d₁) (hw : w.apply now d₁ = some d₂) :
      Advances now scan d free r (.writing snapshot done (w :: todo)) (w.locks d₁)
        (.writing snapshot (done ++ [(w, now)]) todo)

theorem statement_some {now : Timestamp} {scan : List CustomerAccount} {d : Database} {free : Lock → Bool}
    {r r' : VerifierRequest} {p p' : VerifierPhase} {ks : List Lock}
    (h : statement now scan d free ⟨r, p⟩ = some (ks, ⟨r', p'⟩)) :
    r' = r ∧ Advances now scan d free r p ks p' := by
  cases p with
  | begun =>
    simp only [statement] at h
    split at h
    · rename_i hfree
      cases h
      exact ⟨rfl, .locked hfree⟩
    · rename_i htaken
      cases h
      exact ⟨rfl, .skipped htaken⟩
  | locked =>
    simp only [statement] at h
    split at h
    · rename_i hscan
      cases hbatch : nextBatch d (r.params now) scan with
      | none =>
        rw [hbatch] at h
        cases h
        refine ⟨rfl, .outOfRange ?_⟩
        unfold nextBatch at hbatch
        split at hbatch
        · rename_i hraises
          exact hraises
        · cases hbatch
      | some batch =>
        rw [hbatch] at h
        cases h
        obtain ⟨hfree, rfl⟩ := nextBatch_some hbatch
        exact ⟨rfl, .read hscan hfree⟩
    · cases h
  | writing snapshot done todo =>
    cases todo with
    | nil => cases h
    | cons w todo =>
      simp only [statement, Option.bind_eq_bind, Option.bind_eq_some_iff] at h
      obtain ⟨d₁, hdone, h⟩ := h
      split at h
      · rename_i hw
        cases h
        exact ⟨rfl, .refused hdone hw⟩
      · rename_i hw
        cases h
        exact ⟨rfl, .written hdone hw⟩
  | skipped => cases h
  | raised => cases h

def commit (d : Database) : Verifier → Option Database
  | ⟨_, .skipped⟩ => some d
  | ⟨_, .writing _ done []⟩ => applyAll done d
  | _ => none

/-- A run that was skipped commits nothing; another commits once all is written. -/
theorem commit_some {d d' : Database} {v : Verifier} (h : v.commit d = some d') :
    (v.phase = .skipped ∧ d' = d) ∨
      ∃ snapshot done, v.phase = .writing snapshot done [] ∧ applyAll done d = some d' := by
  obtain ⟨r, phase⟩ := v
  cases phase with
  | skipped =>
    cases h
    exact .inl ⟨rfl, rfl⟩
  | writing snapshot done todo =>
    cases todo with
    | nil => exact .inr ⟨snapshot, done, rfl, h⟩
    | cons w todo => cases h
  | begun => cases h
  | locked => cases h
  | raised => cases h

/-- What the transaction has written at its end is what the loop writes. -/
theorem applyAll_writes (clock : Write → Timestamp) (batch : List CustomerAccountVerification)
    (d : Database) : applyAll ((batch.flatMap writes).map fun w => (w, clock w)) d =
      batch.foldlM (record clock) d := by
  induction batch generalizing d with
  | nil => rfl
  | cons v batch ih =>
    rw [List.flatMap_cons, List.map_append, applyAll, List.foldlM_append, List.foldlM_cons, record,
      List.foldlM_map]
    congr 1
    exact funext fun d => ih d

end Verifier
end Statement.Verification
