import Statement.Consumer.Executor
import Statement.Domain.UuidText
import Statement.Payment.Job

/-! The entrypoints of the job queue: from a payload to the outcome that the executor
sees.

A message is written as JSON and read back by pydantic, which is a parameter; that it
makes nothing else of what it has written is a field. A payload that it refuses is a
terminal failure, and so is what no later attempt can mend. -/
namespace Statement.Consumer
open Domain Payment

/-- `model_dump_json` and `model_validate_json` of a message class, with the text of a
`ValidationError`. -/
structure MessageClass (α : Type) where
  dump : α → String
  validate : ByteArray → Except String α
  reads : ∀ a b, validate (dump a).toUTF8 = .ok b → b = a

namespace MessageClass
variable {α : Type} (C : MessageClass α)

/-- `to_payload_bytes`. -/
def toPayloadBytes (a : α) : ByteArray := (C.dump a).toUTF8

/-- `from_payload_bytes`. -/
def fromPayloadBytes : Option ByteArray → Except String (Option α)
  | none => .ok none
  | some payload => (C.validate payload).map some

/-- `_decode_or_fail`. -/
def decodeOrFail (entrypoint : String) (payload : Option ByteArray) : Except Exception α :=
  let undecodable := fun reason : String =>
    (⟨.terminalJobError, "Undecodable payload for " ++ entrypoint ++ ": " ++ reason⟩ : Exception)
  match C.fromPayloadBytes payload with
  | .error reason => .error (undecodable reason)
  | .ok none => .error (undecodable "empty payload")
  | .ok (some a) => .ok a

theorem decodeOrFail_toPayloadBytes {entrypoint : String} {a b : α}
    (h : C.decodeOrFail entrypoint (some (C.toPayloadBytes a)) = .ok b) : b = a := by
  unfold decodeOrFail at h
  split at h
  · cases h
  · cases h
  · rename_i c hc
    cases h
    rw [fromPayloadBytes] at hc
    cases hvalid : C.validate (C.toPayloadBytes a) with
    | error reason =>
      rw [hvalid] at hc
      cases hc
    | ok c' =>
      rw [hvalid] at hc
      cases hc
      exact C.reads a b hvalid

end MessageClass

/-- The texts that are made elsewhere: of an amount, and of what a flush raises. -/
structure Texts where
  amount : Int → String
  flush : JobFailure → String

/-- The exception that leaves the handler. -/
def exceptionOf (texts : Texts) (e : CreatePayment) : JobFailure → Exception
  | .unknownAccount => ⟨.retryRequested 0, "Account " ++ e.accountId.str ++ " is not found"⟩
  | .notActive => ⟨.terminalJobError, "Account " ++ e.accountId.str ++ " is not active"⟩
  | .ledgerNotFound => ⟨.terminalJobError, "Customer account ledger " ++ e.accountId.str ++ " is not found"⟩
  | .insufficientBalance balanceAfter =>
    ⟨.terminalJobError, "Customer account " ++ e.accountId.str ++ " has insufficient funds for payment " ++
      e.id.str ++ " (" ++ texts.amount balanceAfter.natAbs ++ ")"⟩
  | .numericOverflow => ⟨.other "DBAPIError", texts.flush .numericOverflow⟩
  | .integrityError => ⟨.other "IntegrityError", texts.flush .integrityError⟩

/-- `on_create_payment` on a job's payload: how it ends, and the database it leaves. -/
def handleCreatePayment (C : MessageClass CreatePayment) (texts : Texts) (now : Timestamp) (d : Database)
    (payload : Option ByteArray) : Outcome × Database :=
  match C.decodeOrFail CreatePayment.route payload with
  | .error e => (.error e, d)
  | .ok event =>
    match Job.onCreatePayment now d event with
    | .error f => (.error (exceptionOf texts event f), d)
    | .ok d' => (.ok (), d')

/-- A run on a command's own payload fails and leaves the database, or is the
command's. -/
theorem handleCreatePayment_payload (C : MessageClass CreatePayment) (texts : Texts) (now : Timestamp)
    (d : Database) (event : CreatePayment) :
    (∃ e, handleCreatePayment C texts now d (some (C.toPayloadBytes event)) = (.error e, d)) ∨
      ∃ d', handleCreatePayment C texts now d (some (C.toPayloadBytes event)) = (.ok (), d') ∧
        Job.onCreatePayment now d event = .ok d' := by
  unfold handleCreatePayment
  split
  · rename_i e _
    exact .inl ⟨e, rfl⟩
  · rename_i event' hdecoded
    obtain rfl := C.decodeOrFail_toPayloadBytes hdecoded
    split
    · exact .inl ⟨_, rfl⟩
    · rename_i d' hd'
      exact .inr ⟨d', rfl, hd'⟩

end Statement.Consumer
