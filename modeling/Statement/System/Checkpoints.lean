import Statement.System.LedgerIntegrity

/-! The verifier's tables in a running service.

No party breaks a chain, so no incident is recorded; a checkpoint says what the
rows up to it add up to; and nothing ever appears behind a checkpoint that the
run which wrote it had not seen. -/
namespace Statement.System
open Domain Foundation Account Payment Verification

/-- A checkpoint's row is there, with its balance, and that is the sum of the
amounts up to it. -/
def TrueCheckpoint (d : Database) (c : CustomerAccountLedgerVerified) : Prop :=
  (∃ r ∈ d.ledgerOf c.accountId, r.no = c.throughNo ∧ r.balance = c.balance) ∧
    c.balance.cents =
      (((d.ledgerOf c.accountId).filter (·.no ≤ c.throughNo)).map (·.amount.cents)).sum

theorem Sound.trueCheckpoint {E : Set PaymentMessage} {d : Database} (hs : Sound E d)
    {c : CustomerAccountLedgerVerified} (hc : c ∈ d.customerAccountLedgerVerified.rows) :
    TrueCheckpoint d c := by
  obtain ⟨r, hr, hno, hbalance⟩ := hs.checkpoint c hc
  refine ⟨⟨r, hr, hno, hbalance⟩, ?_⟩
  rw [← hbalance, ← hno]
  exact (hs.ledger_of_mem hr).journal.balance_eq_sum hr

section
variable {T : Type} [DecidableEq T] {mac : VersionToken.Digest} {E : Set PaymentMessage}

/-- What a checkpoint's run saw is all there will ever be up to the checkpoint. -/
theorem seen_of_checkpoint {w w₁ w₂ : Service T} {as : List (Step T)} {t : T} {v : Verifier}
    (h : Reachable mac E w) (ht : w.running t = some (.verify v))
    (hc : w.next (service mac) (.commit t) = some w₁) (hrun : RunsFrom mac E w₁ as w₂)
    {c : CustomerAccountLedgerVerified} (hnew : c ∈ w₁.committed.customerAccountLedgerVerified.rows)
    (hold : c ∉ w.committed.customerAccountLedgerVerified.rows) :
    ∃ snapshot done, v.phase = .writing snapshot done [] ∧
      ∀ r ∈ w₂.committed.ledgerOf c.accountId, r.no ≤ c.throughNo →
        r ∈ snapshot.ledgerOf c.accountId := by
  obtain ⟨l, d, hl, hd, rfl⟩ := World.next_commit hc
  rw [ht] at hl
  cases hl
  have hholds : VerifierHolds w.committed v := h.valid.holds t _ ht
  have hd : v.commit w.committed = some d := hd
  have hvalid : (contract mac E).Valid (w.finish t d) :=
    (contract mac E).valid_next h.valid (.commit t) (fun _ _ he => (nomatch he)) hc
  obtain ⟨honly, hrows⟩ := verifier_committed hholds hd
  rcases hrows c hnew with hin | ⟨snapshot, done, hp, q, hq, hno, _⟩
  · exact absurd hin hold
  refine ⟨snapshot, done, hp, fun r hr hle => ?_⟩
  obtain ⟨request, phase⟩ := v
  subst hp
  have hgrows : d.ledgerOf c.accountId <+: w₂.committed.ledgerOf c.accountId :=
    hrun.ledgerGrows hvalid c.accountId
  rw [Database.ledgerOf_congr honly.ledger] at hgrows
  exact ((hrun.valid hvalid).inv.ledger_of_mem hr).journal.mem_of_prefix
    ((hholds.1 c.accountId).trans hgrows) hq hr (hno ▸ hle)

end

/-- **No false alarms and truthful checkpoints.** -/
theorem truthful_checkpoints {T : Type} [DecidableEq T] (mac : VersionToken.Digest) (w : Service T)
    (h : Reachable mac Set.univ w) :
    w.committed.customerAccountLedgerDiscrepancy.rows = [] ∧
    (∀ c ∈ w.committed.customerAccountLedgerVerified.rows, TrueCheckpoint w.committed c) ∧
    ∀ t v w₁ as w₂, w.running t = some (.verify v) →
      w.next (service mac) (.commit t) = some w₁ → RunsFrom mac Set.univ w₁ as w₂ →
      ∀ c ∈ w₁.committed.customerAccountLedgerVerified.rows,
        c ∉ w.committed.customerAccountLedgerVerified.rows →
        ∃ snapshot done, v.phase = .writing snapshot done [] ∧
          ∀ r ∈ w₂.committed.ledgerOf c.accountId, r.no ≤ c.throughNo →
            r ∈ snapshot.ledgerOf c.accountId :=
  ⟨h.sound.noIncident, fun _ hc => h.sound.trueCheckpoint hc,
    fun _ _ _ _ _ ht hc hrun _ hnew hold => seen_of_checkpoint h ht hc hrun hnew hold⟩

/-! ### A run -/

/-- The opening run, and then a verifier that has only its commit left. -/
def verifyingRun : List (Step Nat) :=
  let input : Input := ⟨6, [.create 1 2 .eur (some "main") 3 4]⟩
  openingRun ++ [.begin 3 (.verify ⟨0, 10, 1, 60⟩), .statement 3 input, .statement 3 input,
    .statement 3 input]

theorem verifyingRun_enqueued {E : Set PaymentMessage} (hE : openingDeposit ∈ E) :
    ∀ t e, Action.begin t (Request.payment e) ∈ verifyingRun → ∃ m ∈ E, m.command = e := by
  intro t e ht
  rcases List.mem_append.mp ht with ht | ht
  · exact openingRun_enqueued hE t e ht
  · simp at ht

def isVerifier : Option Party → Bool
  | some (.verify _) => true
  | _ => false

theorem verifying_run_truthful : ∃ w w₁ : Service Nat,
    w.committed.customerAccountLedgerVerified.rows = [] ∧
    w₁.committed.customerAccountLedgerVerified.rows = [⟨1, 2, ⟨1000, by decide⟩, 6⟩] ∧
    (∀ c ∈ w₁.committed.customerAccountLedgerVerified.rows, TrueCheckpoint w₁.committed c) ∧
    ∃ snapshot : Database, ∀ r ∈ w₁.committed.ledgerOf 1, r.no ≤ 2 → r ∈ snapshot.ledgerOf 1 := by
  have hrun : (((initial Nat openingCustomer).run (service fun _ => 0) verifyingRun).bind fun w =>
      (w.next (service fun _ => 0) (.commit 3)).map fun w₁ => (isVerifier (w.running 3),
        w.committed.customerAccountLedgerVerified.rows,
        w₁.committed.customerAccountLedgerVerified.rows)) =
      some (true, [], [⟨1, 2, ⟨1000, by decide⟩, 6⟩]) := by decide
  obtain ⟨w, hw, hrun⟩ := Option.bind_eq_some_iff.mp hrun
  obtain ⟨w₁, hw₁, hrun⟩ := Option.map_eq_some_iff.mp hrun
  obtain ⟨hverifier, hold, hnew⟩ := by simpa only [Prod.mk.injEq] using hrun
  have hreach : Reachable (fun _ => 0) Set.univ w :=
    ⟨openingCustomer, verifyingRun, verifyingRun_enqueued (Set.mem_univ _), hw⟩
  have hreach₁ : Reachable (fun _ => 0) Set.univ w₁ :=
    hreach.step (.commit 3) (fun _ _ he => by cases he) hw₁
  obtain ⟨v, hv⟩ : ∃ v, w.running 3 = some (.verify v) := by
    cases hl : w.running 3 with
    | none => rw [hl] at hverifier; cases hverifier
    | some l =>
      rw [hl] at hverifier
      cases l with
      | verify v => exact ⟨v, rfl⟩
      | create c => cases hverifier
      | change c => cases hverifier
      | payment j => cases hverifier
  obtain ⟨snapshot, _, _, hseen⟩ := (truthful_checkpoints _ w hreach).2.2 3 v w₁ [] w₁ hv hw₁
    ⟨fun _ _ ht => (by cases ht), rfl⟩ ⟨1, 2, ⟨1000, by decide⟩, 6⟩ (by simp [hnew]) (by simp [hold])
  exact ⟨w, w₁, hold, hnew, (truthful_checkpoints _ w₁ hreach₁).2.1, snapshot, hseen⟩

end Statement.System
