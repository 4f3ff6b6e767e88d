import Statement.Foundation.Journal
import Statement.Domain.Database
import Statement.Domain.Lock
import Statement.Payment.Command

/-! What holds of the committed data, and what a commit may do to it.

`Sound` is the invariant: every account has a journal of non-negative balances
that opens with the zero row and continues with payments, and the verifier's
tables agree with it. `Evolves` is the guarantee of every party: ledgers only
grow, and the ledger of an account that is there grows, and its row changes, only
under the lock on that row. -/
namespace Statement.System
open Domain Foundation Payment

/-- The opening row of an account. -/
def Opening (a : UUID) (r : CustomerAccountLedger) : Prop :=
  r.amount = .zero ∧ r.balance = .zero ∧ r.operationType = .create ∧ r.operationId = a

/-- A row that a payment of `E` was stored as. -/
def Paid (E : Set PaymentMessage) (r : CustomerAccountLedger) : Prop :=
  ∃ m ∈ E, r.operationId = m.event.id ∧ r.accountId = m.event.accountId ∧
    r.operationType = m.type ∧ r.amount.cents = m.signed

abbrev LedgerJournal (rows : List CustomerAccountLedger) : Prop :=
  Journal (·.no) (·.amount.cents) (·.balance.cents) rows

structure AccountLedger (E : Set PaymentMessage) (a : UUID) (rows : List CustomerAccountLedger) :
    Prop where
  journal : LedgerJournal rows
  nonneg : ∀ r ∈ rows, 0 ≤ r.balance.cents
  opening : ∀ r ∈ rows, r.no = 1 → Opening a r
  paid : ∀ r ∈ rows, r.no ≠ 1 → Paid E r

namespace AccountLedger
variable {E : Set PaymentMessage} {a : UUID} {rows : List CustomerAccountLedger}

theorem start {r : CustomerAccountLedger} (hn : r.no = 1) (h : Opening a r) :
    AccountLedger E a [r] := by
  have hmem : ∀ q ∈ [r], q = r := fun q hq => List.mem_singleton.mp hq
  obtain ⟨hamount, hbalance, hrest⟩ := h
  refine ⟨.singleton hn (by rw [hamount, hbalance]), fun q hq => ?_, fun q hq _ => ?_, fun q hq hne => ?_⟩
  · rw [hmem q hq, hbalance]
    exact le_rfl
  · rw [hmem q hq]
    exact ⟨hamount, hbalance, hrest⟩
  · exact absurd (hmem q hq ▸ hn) hne

/-- A payment that keeps the balance non-negative may follow. -/
theorem follow (h : AccountLedger E a rows) {last r : CustomerAccountLedger}
    (hl : rows.getLast? = some last) (hn : r.no = last.no + 1)
    (hb : r.balance.cents = last.balance.cents + r.amount.cents) (hpos : 0 ≤ r.balance.cents)
    (hp : Paid E r) : AccountLedger E a (rows ++ [r]) := by
  have hone : 1 ≤ last.no := h.journal.one_le (List.mem_of_getLast? hl)
  have hmem : ∀ q ∈ rows ++ [r], q ∈ rows ∨ q = r := by simp
  refine ⟨h.journal.append hl ⟨hn, hb⟩, fun q hq => ?_, fun q hq hq₁ => ?_, fun q hq hq₁ => ?_⟩
  · rcases hmem q hq with hq | rfl
    · exact h.nonneg q hq
    · exact hpos
  · rcases hmem q hq with hq | rfl
    · exact h.opening q hq hq₁
    · omega
  · rcases hmem q hq with hq | rfl
    · exact h.paid q hq hq₁
    · exact hp

end AccountLedger

structure Sound (E : Set PaymentMessage) (d : Database) : Prop where
  ledger : ∀ a row, d.findById a = some row → AccountLedger E a (d.ledgerOf a)
  owned : ∀ a, d.findById a = none → d.ledgerOf a = []
  checkpoint : ∀ c ∈ d.customerAccountLedgerVerified.rows,
    ∃ r ∈ d.ledgerOf c.accountId, r.no = c.throughNo ∧ r.balance = c.balance
  noIncident : d.customerAccountLedgerDiscrepancy.rows = []

namespace Sound
variable {E : Set PaymentMessage} {d : Database}

theorem empty (customer : Table Customer Customer.clash) : Sound E (.empty customer) :=
  ⟨fun _ _ h => (nomatch h), fun _ _ => rfl, fun _ h => (nomatch h), rfl⟩

/-- Rows belong to an account whose ledger they are in. -/
theorem ledger_of_mem (h : Sound E d) {a : UUID} {r : CustomerAccountLedger} (hr : r ∈ d.ledgerOf a) :
    AccountLedger E a (d.ledgerOf a) := by
  cases ha : d.findById a with
  | none =>
    rw [h.owned a ha] at hr
    cases hr
  | some row => exact h.ledger a row ha

/-- The last entry read is the last row of the journal. -/
theorem findLast_eq (h : Sound E d) {a : UUID} {row : CustomerAccount} (ha : d.findById a = some row) :
    d.findLastLedgerEntry a = (d.ledgerOf a).getLast? := by
  have hledger := h.ledger a row ha
  obtain ⟨init, last, hrows⟩ := (List.eq_nil_or_concat _).resolve_left hledger.journal.ne_nil
  rw [List.concat_eq_append] at hrows
  have hsorted := hledger.journal.sorted
  rw [hrows] at hsorted
  rw [hrows, List.getLast?_concat]
  exact Database.findLastLedgerEntry_eq hrows fun r hr =>
    (List.pairwise_append.mp hsorted).2.2 r hr last (List.mem_singleton.mpr rfl)

end Sound

structure Evolves (H : Set Lock) (d d' : Database) : Prop where
  customer : d'.customer = d.customer
  ledgerGrows : ∀ a, d.ledgerOf a <+: d'.ledgerOf a
  ledgerKept : ∀ a row, d.findById a = some row → .accountRow a ∉ H → d'.ledgerOf a = d.ledgerOf a
  account : ∀ a row, d.findById a = some row → ∃ row', d'.findById a = some row' ∧
    (row' = row ∨ (.accountRow a ∈ H ∧ row.version < row'.version))
  accountFree : ∀ a : CustomerAccount, ¬ d.customerAccount.conflicts a → .accountKey a.id ∉ H →
    .customerCurrency a.customerId a.currency ∉ H → ¬ d'.customerAccount.conflicts a
  historyFree : ∀ h : CustomerAccountHistory, ¬ d.customerAccountHistory.conflicts h →
    .historyKey h.account.id h.account.version ∉ H → ¬ d'.customerAccountHistory.conflicts h

namespace Evolves
variable {H : Set Lock} {d d' : Database}

theorem refl (H : Set Lock) (d : Database) : Evolves H d d :=
  ⟨rfl, fun _ => List.prefix_refl _, fun _ _ _ _ => rfl, fun _ row h => ⟨row, h, .inl rfl⟩,
    fun _ h _ _ => h, fun _ h _ => h⟩

/-- Under another's lock on its row, an account and its ledger stay as they are. -/
theorem kept (h : Evolves H d d') {a : UUID} {row : CustomerAccount} (ha : d.findById a = some row)
    (hlock : .accountRow a ∉ H) : d'.findById a = some row ∧ d'.ledgerOf a = d.ledgerOf a := by
  obtain ⟨row', hrow', rfl | ⟨hin, _⟩⟩ := h.account a row ha
  · exact ⟨hrow', h.ledgerKept a row' ha hlock⟩
  · exact absurd hin hlock

theorem mem_ledger (h : Evolves H d d') {a : UUID} {r : CustomerAccountLedger}
    (hr : r ∈ d.ledgerOf a) : r ∈ d'.ledgerOf a := (h.ledgerGrows a).subset hr

/-- What only touches the verifier's tables changes nothing the others look at. -/
theorem of_eq (hc : d'.customer = d.customer) (ha : d'.customerAccount = d.customerAccount)
    (hh : d'.customerAccountHistory = d.customerAccountHistory)
    (hl : d'.customerAccountLedger = d.customerAccountLedger) : Evolves H d d' := by
  refine ⟨hc, fun a => ?_, fun a row _ _ => Database.ledgerOf_congr hl a, fun a row h => ?_, ?_, ?_⟩
  · rw [Database.ledgerOf_congr hl a]
  · exact ⟨row, by rw [Database.findById_congr ha a, h], .inl rfl⟩
  · rw [ha]
    exact fun _ h _ _ => h
  · rw [hh]
    exact fun _ h _ => h

end Evolves
end Statement.System
