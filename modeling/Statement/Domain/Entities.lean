import Statement.Domain.Money

/-! The rows of the service's tables.

Each record has the columns of its mapped class. Two columns differ from what
the database could hold: `currency` is text, but the one route that writes it
takes a `Currency`; a status or an operation type outside its enumeration does
not load, so the enumerations are inductive types. -/
namespace Statement.Domain

abbrev UUID := Fin (2 ^ 128)

instance uuid_neZero : NeZero (2 ^ 128) := ⟨by decide⟩

/-- `0`–`9`, `a`–`f`. -/
def hexDigit (n : Nat) : Char := Char.ofNat (if n < 10 then 48 + n else 87 + n)

/-- The hexadecimal digits of a UUID from place `i` on. -/
def UUID.hex (u : UUID) (i n : Nat) : List Char :=
  (List.range n).map fun k => hexDigit (u.val / 16 ^ (31 - (i + k)) % 16)

/-- `str(uuid)`. -/
def UUID.str (u : UUID) : String :=
  String.ofList (u.hex 0 8 ++ '-' :: u.hex 8 4 ++ '-' :: u.hex 12 4 ++ '-' :: u.hex 16 4 ++
    '-' :: u.hex 20 12)

/-- Microseconds since some origin. -/
abbrev Timestamp := Int

inductive Currency where
  | usd | eur | gbp | uah | jpy
  deriving DecidableEq, Repr

inductive CustomerAccountStatus where
  | active | disabled | deleted
  deriving DecidableEq, Repr

inductive LedgerOperationType where
  /-- The zero-amount row every account starts with, so that the chain always has
  a predecessor and `no` starts dense at 1. -/
  | create
  | deposit
  | withdrawal
  deriving DecidableEq, Repr

inductive LedgerDiscrepancyKind where
  /-- An already verified row's balance changed since it was checkpointed. -/
  | anchorBalance
  /-- A hole in the numbering; the running total still adds up. -/
  | gap
  /-- The running total broke. -/
  | balance
  /-- Both at once. -/
  | gapBalance
  deriving DecidableEq, Repr

inductive CustomerStatus where
  | active | disabled
  deriving DecidableEq, Repr

structure Customer where
  id : UUID
  email : String
  name : Option String
  status : CustomerStatus
  createdAt : Timestamp
  updatedAt : Option Timestamp
  deriving DecidableEq

@[ext] structure CustomerAccount where
  id : UUID
  customerId : UUID
  currency : Currency
  name : Option String
  status : CustomerAccountStatus
  createdAt : Timestamp
  updatedAt : Timestamp
  updatedBy : UUID
  /-- Added to the table by the history recipe. -/
  version : Nat
  deriving DecidableEq

/-- A row of the history table: an account's columns as they were at `version`. -/
structure CustomerAccountHistory where
  account : CustomerAccount
  changed : Timestamp
  deriving DecidableEq

structure CustomerAccountLedger where
  accountId : UUID
  no : Int
  amount : Numeric
  balance : Numeric
  operationType : LedgerOperationType
  operationId : UUID
  createdAt : Timestamp
  /-- `none` is a row written by the system. -/
  createdBy : Option UUID
  deriving DecidableEq

structure CustomerAccountLedgerVerified where
  accountId : UUID
  throughNo : Int
  balance : Numeric
  verifiedAt : Timestamp
  deriving DecidableEq

structure CustomerAccountLedgerDiscrepancy where
  discrepancyId : Nat
  accountId : UUID
  no : Int
  kind : LedgerDiscrepancyKind
  prevNo : Int
  expectedBalance : Option Numeric
  actualBalance : Numeric
  detectedAt : Timestamp
  resolvedAt : Option Timestamp
  resolvedBy : Option UUID
  deriving DecidableEq

namespace CustomerAccount

def create (entityId customerId : UUID) (currency : Currency) (name : Option String)
    (updatedBy : UUID) (now : Timestamp) : CustomerAccount :=
  { id := entityId, customerId, currency, name, status := .active, createdAt := now,
    updatedAt := now, updatedBy, version := 1 }

end CustomerAccount

/-- A ledger entry before it is stored: amounts are still decimals. -/
structure LedgerEntry where
  accountId : UUID
  no : Int
  amount : Int
  balance : Int
  operationType : LedgerOperationType
  operationId : UUID
  createdAt : Timestamp
  createdBy : Option UUID
  deriving DecidableEq

namespace LedgerEntry

/-- `CustomerAccountLedger.create`: the account's own id stands in as the
operation id of the opening row. -/
def create (accountId : UUID) (createdBy : Option UUID) (now : Timestamp) : LedgerEntry :=
  { accountId, no := 1, amount := 0, balance := 0, operationType := .create,
    operationId := accountId, createdAt := now, createdBy }

/-- `CustomerAccountLedger.follow`. -/
def follow (previous : CustomerAccountLedger) (amount : Int)
    (operationType : LedgerOperationType) (operationId : UUID) (createdBy : Option UUID)
    (now : Timestamp) : LedgerEntry :=
  { accountId := previous.accountId, no := previous.no + 1, amount,
    balance := Decimal.add previous.balance.cents amount, operationType, operationId,
    createdAt := now, createdBy }

/-- The row an entry is stored as, if both amounts fit their columns. -/
def store (e : LedgerEntry) : Option CustomerAccountLedger := do
  let amount ← Numeric.store e.amount
  let balance ← Numeric.store e.balance
  some { accountId := e.accountId, no := e.no, amount, balance, operationType := e.operationType,
         operationId := e.operationId, createdAt := e.createdAt, createdBy := e.createdBy }

theorem store_some {e : LedgerEntry} {row : CustomerAccountLedger} (h : e.store = some row) :
    row.accountId = e.accountId ∧ row.no = e.no ∧ row.amount.cents = e.amount ∧
      row.balance.cents = e.balance ∧ row.operationType = e.operationType ∧
      row.operationId = e.operationId := by
  simp only [store, Option.bind_eq_bind, Option.bind_eq_some_iff, Option.some.injEq] at h
  obtain ⟨amount, ha, balance, hb, rfl⟩ := h
  exact ⟨rfl, rfl, Numeric.store_some.mp ha, Numeric.store_some.mp hb, rfl, rfl⟩

end LedgerEntry
end Statement.Domain
