import Statement.Domain.Database
import Statement.Domain.Lock

/-! Creating an account: the transaction of `create_customer_account`.

The flush inserts the account and then its opening ledger row, in that order
because the row refers to the account. Enqueueing the created event goes through
another dependency and touches neither table; `Wiring.Outbox` follows it. -/
namespace Statement.Account
open Domain

/-- A request with what the handler draws for it: the caller, the new id and the
times of the two constructors. -/
structure CustomerAccountCreate where
  name : String
  customerId : UUID
  currency : Currency
  nameLength : 3 ≤ name.length ∧ name.length ≤ 50
  sub : UUID
  entityId : UUID
  now : Timestamp

namespace CustomerAccountCreate

def account (c : CustomerAccountCreate) : CustomerAccount :=
  .create c.entityId c.customerId c.currency (some c.name) c.sub c.now

def opening (c : CustomerAccountCreate) : LedgerEntry :=
  .create c.entityId (some c.sub) c.now

/-- The opening row; its amounts are zero, so storing them cannot fail. -/
def openingRow (c : CustomerAccountCreate) : CustomerAccountLedger :=
  { accountId := c.entityId, no := 1, amount := .zero, balance := .zero, operationType := .create,
    operationId := c.entityId, createdAt := c.now, createdBy := some c.sub }

/-- The account 1 of the customer 2, created by the caller 3. -/
def sample : CustomerAccountCreate := ⟨"main", 2, .eur, by decide, 3, 1, 4⟩

theorem opening_store (c : CustomerAccountCreate) : c.opening.store = some c.openingRow := rfl

end CustomerAccountCreate

/-- Where a creation is. -/
inductive CreatePhase where
  | begun
  /-- The account is inserted. -/
  | inserted
  /-- Both rows are. -/
  | flushed
  /-- `IntegrityError`, answered with 400. -/
  | raised
  deriving DecidableEq

structure Create where
  request : CustomerAccountCreate
  phase : CreatePhase

namespace Create

/-- The foreign key to the customer. -/
def customerExists (d : Database) (c : CustomerAccountCreate) : Prop :=
  ∃ x ∈ d.customer.rows, x.id = c.customerId

instance (d : Database) (c : CustomerAccountCreate) : Decidable (customerExists d c) :=
  inferInstanceAs (Decidable (∃ x ∈ d.customer.rows, x.id = c.customerId))

def statement (d : Database) : Create → Option (List Lock × Create)
  | ⟨c, .begun⟩ =>
    if customerExists d c ∧ ¬ d.customerAccount.conflicts c.account then
      some ([.accountKey c.entityId, .customerCurrency c.customerId c.currency], ⟨c, .inserted⟩)
    else some ([], ⟨c, .raised⟩)
  | ⟨c, .inserted⟩ =>
    if d.customerAccountLedger.conflicts c.openingRow then some ([], ⟨c, .raised⟩)
    else some ([.ledgerKey c.entityId 1, .operationKey c.entityId c.entityId], ⟨c, .flushed⟩)
  | _ => none

def commit (d : Database) : Create → Option Database
  | ⟨c, .flushed⟩ => do
    let accounts ← d.customerAccount.insert c.account
    let ledger ← d.customerAccountLedger.insert c.openingRow
    some { d with customerAccount := accounts, customerAccountLedger := ledger }
  | _ => none

/-- Only a creation that has inserted both rows commits, and it adds both. -/
theorem commit_some {d d' : Database} {c : Create} (h : c.commit d = some d') :
    c.phase = .flushed ∧ ∃ accounts ledger, d.customerAccount.insert c.request.account = some accounts ∧
      d.customerAccountLedger.insert c.request.openingRow = some ledger ∧
      d' = { d with customerAccount := accounts, customerAccountLedger := ledger } := by
  obtain ⟨r, phase⟩ := c
  cases phase with
  | flushed =>
    simp only [commit, Option.bind_eq_bind, Option.bind_eq_some_iff, Option.some.injEq] at h
    obtain ⟨accounts, haccounts, ledger, hledger, hd'⟩ := h
    exact ⟨rfl, accounts, ledger, haccounts, hledger, hd'.symm⟩
  | begun => cases h
  | inserted => cases h
  | raised => cases h

end Create
end Statement.Account
