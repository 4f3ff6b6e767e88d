import Statement.Domain.Entities
import Statement.Foundation.Transaction

/-! What the service's transactions lock: a row, an entry of a unique index that
an insert has claimed, or an advisory key.

An account's row is locked in three ways. An `UPDATE` of columns that are in no key
takes it `FOR NO KEY UPDATE`, and the check of a foreign key `FOR KEY SHARE`: these go
together, and any number of the latter. `lock_by_id` takes it `FOR UPDATE`, that is, in
a way that goes with neither. (A row that the transaction has inserted or locked
`FOR UPDATE` itself needs no other lock, and nothing here locks a customer's row, which
an account refers to, against such checks.) -/
namespace Statement.Domain

inductive Lock where
  /-- `FOR NO KEY UPDATE`. -/
  | accountRow (id : UUID)
  /-- What `FOR UPDATE` takes besides. -/
  | accountRowKey (id : UUID)
  /-- `FOR KEY SHARE`. -/
  | accountRowShare (id : UUID)
  | accountKey (id : UUID)
  | customerCurrency (customerId : UUID) (currency : Currency)
  | historyKey (id : UUID) (version : Nat)
  | ledgerKey (accountId : UUID) (no : Int)
  | operationKey (accountId operationId : UUID)
  | verifiedKey (accountId : UUID) (throughNo : Int)
  | openDiscrepancyKey (accountId : UUID)
  | discrepancyRow (discrepancyId : Nat)
  | advisory (scheduleId : Nat)
  deriving DecidableEq

namespace Lock

/-- `FOR UPDATE`. -/
def forUpdate (id : UUID) : List Lock := [.accountRow id, .accountRowKey id]

def conflicts : Lock → List Lock
  | accountRowKey id => [accountRowKey id, accountRowShare id]
  | accountRowShare id => [accountRowKey id]
  | k => [k]

theorem conflicts_symm {k k' : Lock} (h : k' ∈ k.conflicts) : k ∈ k'.conflicts := by
  cases k with
  | accountRowKey id =>
    have h : k' = .accountRowKey id ∨ k' = .accountRowShare id := by simpa [conflicts] using h
    rcases h with rfl | rfl <;> simp [conflicts]
  | accountRowShare id =>
    obtain rfl : k' = .accountRowKey id := by simpa [conflicts] using h
    simp [conflicts]
  | _ =>
    obtain rfl := List.mem_singleton.mp h
    exact h

instance conflicting : Foundation.Conflicting Lock := ⟨conflicts, conflicts_symm⟩

end Lock
end Statement.Domain
