import Statement.Domain.Entities

/-! The history recipe: what a flush archives of a changed account.

`before_flush` runs `create_version` on every dirty account. Each column's
archived value is picked from the attribute's history (deleted, else unchanged,
else added), and the account counts as changed as soon as one column was. -/
namespace Statement.Account
open Domain

/-- `attributes.get_history` of a loaded attribute. -/
structure AttributeHistory (α : Type) where
  added : List α
  unchanged : List α
  deleted : List α

variable {α : Type} [DecidableEq α]

def getHistory (loaded current : α) : AttributeHistory α :=
  if current = loaded then ⟨[], [current], []⟩ else ⟨[current], [], [loaded]⟩

/-- The value `create_version` archives for a column, and whether the column
makes the object a changed one. -/
def archive (loaded current : α) : α × Bool :=
  match getHistory loaded current with
  | ⟨_, _, d :: _⟩ => (d, true)
  | ⟨_, u :: _, []⟩ => (u, false)
  | ⟨a :: _, [], []⟩ => (a, true)
  | ⟨[], [], []⟩ => (current, false)

@[simp] theorem archive_eq (loaded current : α) :
    archive loaded current = (loaded, decide (current ≠ loaded)) := by
  by_cases h : current = loaded <;> simp [archive, getHistory, h]

/-- The history row and the account with its version moved on; `none` when no
column changed. -/
def createVersion (loaded current : CustomerAccount) (now : Timestamp) :
    Option (CustomerAccountHistory × CustomerAccount) :=
  let id := archive loaded.id current.id
  let customerId := archive loaded.customerId current.customerId
  let currency := archive loaded.currency current.currency
  let name := archive loaded.name current.name
  let status := archive loaded.status current.status
  let createdAt := archive loaded.createdAt current.createdAt
  let updatedAt := archive loaded.updatedAt current.updatedAt
  let updatedBy := archive loaded.updatedBy current.updatedBy
  if id.2 || customerId.2 || currency.2 || name.2 || status.2 || createdAt.2 || updatedAt.2 ||
      updatedBy.2 then
    some (⟨{ id := id.1, customerId := customerId.1, currency := currency.1, name := name.1,
             status := status.1, createdAt := createdAt.1, updatedAt := updatedAt.1,
             updatedBy := updatedBy.1, version := current.version }, now⟩,
      { current with version := current.version + 1 })
  else none

/-- An account no column of which changed is not archived; any other is archived
exactly as it was loaded. -/
theorem createVersion_eq (loaded current : CustomerAccount) (now : Timestamp)
    (h : current.version = loaded.version) :
    createVersion loaded current now =
      if current = loaded then none
      else some (⟨loaded, now⟩, { current with version := loaded.version + 1 }) := by
  simp only [createVersion, archive_eq, h]
  by_cases heq : current = loaded
  · subst heq
    simp
  · rw [if_neg heq, if_pos]
    -- some column differs: were they all equal, so would the accounts be
    by_contra hsame
    simp only [Bool.not_eq_true, Bool.or_eq_false_iff, decide_eq_false_iff_not, not_not] at hsame
    obtain ⟨⟨⟨⟨⟨⟨⟨hid, hcustomer⟩, hcurrency⟩, hname⟩, hstatus⟩, hcreated⟩, hupdated⟩, hby⟩ := hsame
    exact heq (CustomerAccount.ext hid hcustomer hcurrency hname hstatus hcreated hupdated hby h)

end Statement.Account
