import Statement.Domain.Entities

/-! Payment events and the command they are enqueued as. -/
namespace Statement.Payment
open Domain

/-- `PaymentEvent`, as its schema admits it: a positive amount of at most two
fractional digits, however large. -/
structure PaymentEvent where
  id : UUID
  accountId : UUID
  amount : Int
  occurredAt : Timestamp
  positive : 0 < amount

inductive PaymentMessage where
  | deposited (event : PaymentEvent)
  | withdrawn (event : PaymentEvent)

structure CreatePayment where
  id : UUID
  accountId : UUID
  type : LedgerOperationType
  signedAmount : Int
  occurredAt : Timestamp
  deriving DecidableEq

namespace CreatePayment

def route : String := "payment.create"

def dedupeKey (c : CreatePayment) : String := route ++ "." ++ c.id.str

end CreatePayment

namespace PaymentMessage

def event : PaymentMessage → PaymentEvent
  | deposited event => event
  | withdrawn event => event

def type : PaymentMessage → LedgerOperationType
  | deposited _ => .deposit
  | withdrawn _ => .withdrawal

/-- The exact amount the payment moves: `+amount` or `-amount`. -/
def signed : PaymentMessage → Int
  | deposited event => event.amount
  | withdrawn event => -event.amount

/-- The command `on_payment_deposited` and `on_payment_withdrawn` enqueue. -/
def command : PaymentMessage → CreatePayment
  | deposited event =>
    { id := event.id, accountId := event.accountId, type := .deposit,
      signedAmount := event.amount, occurredAt := event.occurredAt }
  | withdrawn event =>
    { id := event.id, accountId := event.accountId, type := .withdrawal,
      signedAmount := Decimal.mul event.amount (-1), occurredAt := event.occurredAt }

/-- A deposit of 10.00 on the account 1. -/
def sample : PaymentMessage := .deposited ⟨7, 1, 1000, 0, by decide⟩

@[simp] theorem command_id (m : PaymentMessage) : m.command.id = m.event.id := by cases m <;> rfl

@[simp] theorem command_accountId (m : PaymentMessage) : m.command.accountId = m.event.accountId := by
  cases m <;> rfl

@[simp] theorem command_type (m : PaymentMessage) : m.command.type = m.type := by cases m <;> rfl

/-- An amount that its column accepts is the event's own, with its sign. -/
theorem command_exact {m : PaymentMessage} {n : Numeric}
    (h : Numeric.store m.command.signedAmount = some n) : m.command.signedAmount = m.signed := by
  cases m with
  | deposited event => rfl
  | withdrawn event =>
    have := Decimal.mul_exact h
    show Decimal.mul event.amount (-1) = -event.amount
    omega

theorem signed_pos (event : PaymentEvent) : 0 < (deposited event).signed := event.positive

theorem signed_neg (event : PaymentEvent) : (withdrawn event).signed < 0 := by
  have := event.positive
  simp only [signed]
  omega

end PaymentMessage
end Statement.Payment
