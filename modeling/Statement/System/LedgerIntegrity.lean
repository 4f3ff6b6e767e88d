import Statement.System.Service

/-! The ledgers of a running service.

Whatever creations, payments, updates, deletions and verifier runs interleave, and
wherever they fail, an account's committed rows are its opening row and payments
that chain without a gap and never go below zero. -/
namespace Statement.System
open Domain Foundation Account Payment

/-- What an account's rows should be. -/
structure LedgerIntegrity (rows : List CustomerAccountLedger) : Prop where
  numbered : ∃ n : Nat, 1 ≤ n ∧ (rows.map (·.no)).Perm ((List.range n).map fun k : Nat => (k : Int) + 1)
  opening : ∀ r ∈ rows, r.no = 1 → r.amount = .zero ∧ r.balance = .zero ∧ r.operationType = .create
  chain : ∀ q ∈ rows, ∀ r ∈ rows, r.no = q.no + 1 →
    r.balance.cents = q.balance.cents + r.amount.cents
  nonneg : ∀ r ∈ rows, 0 ≤ r.balance.cents
  deposit : ∀ r ∈ rows, r.operationType = .deposit → 0 < r.amount.cents
  withdrawal : ∀ r ∈ rows, r.operationType = .withdrawal → r.amount.cents < 0
  once : rows.Pairwise fun q r => q.operationId ≠ r.operationId

theorem Paid.amount {E : Set PaymentMessage} {r : CustomerAccountLedger} (h : Paid E r) :
    (r.operationType = .deposit ∧ 0 < r.amount.cents) ∨
      (r.operationType = .withdrawal ∧ r.amount.cents < 0) := by
  obtain ⟨m, _, _, _, htype, hamount⟩ := h
  cases m with
  | deposited event => exact .inl ⟨htype, hamount ▸ PaymentMessage.signed_pos event⟩
  | withdrawn event => exact .inr ⟨htype, hamount ▸ PaymentMessage.signed_neg event⟩

/-- An account's operation ids are a unique index. -/
theorem operations_distinct (d : Database) (a : UUID) :
    (d.ledgerOf a).Pairwise fun q r => q.operationId ≠ r.operationId := by
  have h := d.customerAccountLedger.distinct.filter (p := fun r => r.accountId = a)
  refine h.imp_of_mem fun {q r} hq hr hqr he => hqr ⟨?_, .inr he⟩
  have hq' : q.accountId = a := by simpa using (List.mem_filter.mp hq).2
  have hr' : r.accountId = a := by simpa using (List.mem_filter.mp hr).2
  rw [hq', hr']

theorem AccountLedger.integrity {E : Set PaymentMessage} {a : UUID} {rows : List CustomerAccountLedger}
    (h : AccountLedger E a rows)
    (hops : rows.Pairwise fun q r => q.operationId ≠ r.operationId) : LedgerIntegrity rows := by
  have htype : ∀ r ∈ rows, r.operationType = .create ∨ Paid E r := by
    intro r hr
    by_cases hn : r.no = 1
    · exact .inl (h.opening r hr hn).2.2.1
    · exact .inr (h.paid r hr hn)
  refine ⟨⟨rows.length, List.length_pos_of_ne_nil h.journal.ne_nil, .of_eq h.journal.map_no⟩,
    fun r hr hn => ?_, fun q hq r hr hn => h.journal.balance_succ hq hr hn, h.nonneg, fun r hr ht => ?_,
    fun r hr ht => ?_, hops⟩
  · obtain ⟨h₁, h₂, h₃, _⟩ := h.opening r hr hn
    exact ⟨h₁, h₂, h₃⟩
  · rcases htype r hr with hc | hp
    · exact absurd (hc.symm.trans ht) (by decide)
    · rcases hp.amount with ⟨_, hpos⟩ | ⟨hw, _⟩
      · exact hpos
      · exact absurd (hw.symm.trans ht) (by decide)
  · rcases htype r hr with hc | hp
    · exact absurd (hc.symm.trans ht) (by decide)
    · rcases hp.amount with ⟨hd, _⟩ | ⟨_, hneg⟩
      · exact absurd (hd.symm.trans ht) (by decide)
      · exact hneg

/-- **The ledger invariant**: it holds of every account in every state the service
reaches, and so no payment job ever finds an account without a ledger. -/
theorem ledger_integrity {T : Type} [DecidableEq T] (mac : VersionToken.Digest) (w : Service T)
    (h : Reachable mac Set.univ w) :
    (∀ account ∈ w.committed.customerAccount.rows,
      LedgerIntegrity (w.committed.ledgerOf account.id)) ∧
    ∀ t e, w.running t ≠ some (.payment ⟨e, .raised .ledgerNotFound⟩) := by
  refine ⟨fun account ha => ?_, fun t e hl => ?_⟩
  · exact (h.sound.ledger _ _ (Database.findById_of_mem ha)).integrity (operations_distinct _ _)
  · exact (h.valid.holds t _ hl).phase rfl

/-! ### A run -/

def openingCustomer : Table Customer Customer.clash :=
  .single ⟨2, "a@b.c", none, .active, 0, none⟩

def openingDeposit : PaymentMessage := .sample

/-- An account is created, and two jobs for one deposit race: the second begins
first, waits for the row and then finds the operation. -/
def openingRun : List (Step Nat) :=
  let input : Input := ⟨5, []⟩
  [.begin 0 (.create .sample), .statement 0 input, .statement 0 input,
    .commit 0, .begin 1 (.payment openingDeposit.command), .begin 2 (.payment openingDeposit.command),
    .statement 2 input, .statement 2 input, .statement 2 input, .statement 2 input, .commit 2,
    .statement 1 input, .statement 1 input, .commit 1]

theorem openingRun_enqueued {E : Set PaymentMessage} (hE : openingDeposit ∈ E) :
    ∀ t e, Action.begin t (Request.payment e) ∈ openingRun → ∃ m ∈ E, m.command = e := by
  intro t e ht
  refine ⟨openingDeposit, hE, ?_⟩
  simp only [openingRun, List.mem_cons, Action.begin.injEq, Request.payment.injEq, reduceCtorEq,
    and_false, false_or, List.not_mem_nil, or_false] at ht
  rcases ht with ⟨_, rfl⟩ | ⟨_, rfl⟩ <;> rfl

theorem opening_run_integrity : ∃ w : Service Nat, w.committed.customerAccount.rows.length = 1 ∧
    (∀ account ∈ w.committed.customerAccount.rows,
      LedgerIntegrity (w.committed.ledgerOf account.id)) ∧
    (w.committed.ledgerOf 1).map (fun r => (r.no, r.amount.cents, r.balance.cents)) =
      [(1, 0, 0), (2, 1000, 1000)] := by
  have hrun : ((initial Nat openingCustomer).run (service fun _ => 0) openingRun).map (fun w =>
      (w.committed.customerAccount.rows.length,
        (w.committed.ledgerOf 1).map fun r => (r.no, r.amount.cents, r.balance.cents))) =
      some (1, [(1, 0, 0), (2, 1000, 1000)]) := by decide
  obtain ⟨w, hw, hrows⟩ := Option.map_eq_some_iff.mp hrun
  obtain ⟨hlength, hledger⟩ := Prod.mk.inj hrows
  have hreach : Reachable (fun _ => 0) Set.univ w :=
    ⟨openingCustomer, openingRun, openingRun_enqueued (Set.mem_univ _), hw⟩
  exact ⟨w, hlength, (ledger_integrity _ w hreach).1, hledger⟩

end Statement.System
