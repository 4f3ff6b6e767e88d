import Statement.Domain.Database
import Statement.Domain.Lock
import Statement.Account.VersionToken
import Statement.Account.VersionedHistory

/-! Updating and deleting an account: `updated_customer_account` and
`delete_customer_account`.

The two handlers differ in where the token comes from and in what they assign.
The functions here are the handlers' own steps; `Change` runs them one statement
at a time on a session that commits. -/
namespace Statement.Account
open Domain VersionToken

/-- The body of a `PATCH`, as its schema admits it. -/
structure CustomerAccountUpdate where
  version : String
  name : Option String
  status : Option CustomerAccountStatus
  versionLength : version.length = tokenLength
  nameLength : ∀ n, name = some n → 3 ≤ n.length ∧ n.length ≤ 50
  statusAllowed : ∀ s, status = some s → s = .active ∨ s = .disabled

inductive ChangeAction where
  | patch (body : CustomerAccountUpdate)
  | delete (version : String) (versionLength : version.length = tokenLength)

structure ChangeRequest where
  accountId : UUID
  action : ChangeAction
  /-- The caller, `principal.sub`. -/
  sub : UUID

/-- How a request ends when it does not answer 204. -/
inductive ChangeFailure where
  | notFound
  /-- 409: the token is not the current version's. -/
  | modified
  /-- 500: the token is not ASCII. -/
  | typeError
  /-- 500: the account is attached to another session. -/
  | alreadyAttached
  /-- 409: another writer moved the version on before the flush. -/
  | staleData
  /-- 500: the version is in the history already. -/
  | integrityError
  deriving DecidableEq, Repr

def ChangeFailure.status : ChangeFailure → Nat
  | .notFound => 404
  | .modified | .staleData => 409
  | .typeError | .alreadyAttached | .integrityError => 500

namespace ChangeRequest

def version (r : ChangeRequest) : String :=
  match r.action with
  | .patch body => body.version
  | .delete version _ => version

/-- The checks before anything is assigned. -/
def letThrough (mac : Digest) (r : ChangeRequest) (found : Option CustomerAccount) :
    Except ChangeFailure CustomerAccount :=
  match found with
  | none => .error .notFound
  | some account =>
    if account.status = .deleted then .error .notFound
    else match verify mac account.id account.version r.version with
      | none => .error .typeError
      | some false => .error .modified
      | some true => .ok account

def assign (r : ChangeRequest) (account : CustomerAccount) : CustomerAccount :=
  match r.action with
  | .patch body =>
    { account with
      name := match body.name with
        | some name => some name
        | none => account.name
      status := match body.status with
        | some status => status
        | none => account.status
      updatedBy := r.sub }
  | .delete _ _ => { account with status := .deleted, updatedBy := r.sub }

/-- A request is let through for an account that is there, is not deleted, and
whose version the token was issued for. -/
theorem letThrough_ok {mac : Digest} {r : ChangeRequest} {found : Option CustomerAccount}
    {account : CustomerAccount} :
    r.letThrough mac found = .ok account ↔ found = some account ∧ account.status ≠ .deleted ∧
      verify mac account.id account.version r.version = some true := by
  cases found with
  | none => simp [letThrough]
  | some a =>
    by_cases hs : a.status = .deleted
    · simp only [letThrough, hs, if_true, Option.some.injEq]
      refine ⟨fun h => (nomatch h), ?_⟩
      rintro ⟨rfl, hne, _⟩
      exact absurd hs hne
    · simp only [letThrough, hs, if_false, Option.some.injEq]
      cases hv : verify mac a.id a.version r.version with
      | none =>
        refine ⟨fun h => (nomatch h), ?_⟩
        rintro ⟨rfl, _, h⟩
        rw [hv] at h
        cases h
      | some b =>
        cases b with
        | false =>
          refine ⟨fun h => (nomatch h), ?_⟩
          rintro ⟨rfl, _, h⟩
          rw [hv] at h
          cases h
        | true =>
          constructor
          · intro h
            cases h
            exact ⟨rfl, hs, hv⟩
          · rintro ⟨rfl, _, _⟩
            rfl

@[simp] theorem assign_id (r : ChangeRequest) (a : CustomerAccount) : (r.assign a).id = a.id := by
  unfold assign
  split <;> rfl

@[simp] theorem assign_version (r : ChangeRequest) (a : CustomerAccount) :
    (r.assign a).version = a.version := by
  unfold assign
  split <;> rfl

/-- What a request never touches. -/
theorem assign_kept (r : ChangeRequest) (a : CustomerAccount) :
    (r.assign a).customerId = a.customerId ∧ (r.assign a).currency = a.currency ∧
      (r.assign a).createdAt = a.createdAt ∧ (r.assign a).updatedAt = a.updatedAt := by
  unfold assign
  split <;> exact ⟨rfl, rfl, rfl, rfl⟩

end ChangeRequest

/-! ### The versioned update -/

/-- The columns an `UPDATE` sets on a row: those that differ from what was
loaded, the version, and `updated_at` by its `onupdate`. -/
def setColumns (loaded current : CustomerAccount) (now : Timestamp) (row : CustomerAccount) :
    CustomerAccount :=
  { row with
    name := if current.name = loaded.name then row.name else current.name
    status := if current.status = loaded.status then row.status else current.status
    updatedBy := if current.updatedBy = loaded.updatedBy then row.updatedBy else current.updatedBy
    updatedAt := now
    version := current.version }

/-- `WHERE id = ? AND version = ?`, with the version that was loaded. -/
def matched (loaded row : CustomerAccount) : Prop := row.id = loaded.id ∧ row.version = loaded.version

instance (loaded row : CustomerAccount) : Decidable (matched loaded row) :=
  inferInstanceAs (Decidable (_ ∧ _))

def updateRow (loaded current : CustomerAccount) (now : Timestamp) (row : CustomerAccount) :
    CustomerAccount :=
  if matched loaded row then setColumns loaded current now row else row

@[simp] theorem updateRow_id (loaded current : CustomerAccount) (now : Timestamp)
    (row : CustomerAccount) : (updateRow loaded current now row).id = row.id := by
  unfold updateRow
  split <;> rfl

/-- An update leaves every unique key as it was. -/
theorem updateRow_keys (loaded current : CustomerAccount) (now : Timestamp) (row : CustomerAccount) :
    (updateRow loaded current now row).id = row.id ∧
      (updateRow loaded current now row).customerId = row.customerId ∧
      (updateRow loaded current now row).currency = row.currency := by
  unfold updateRow
  split <;> exact ⟨rfl, rfl, rfl⟩

theorem updateRow_clash (loaded current : CustomerAccount) (now : Timestamp) (a b : CustomerAccount)
    (h : (updateRow loaded current now a).clash (updateRow loaded current now b)) : a.clash b := by
  obtain ⟨ha, hb, hc⟩ := updateRow_keys loaded current now a
  obtain ⟨ha', hb', hc'⟩ := updateRow_keys loaded current now b
  simpa only [CustomerAccount.clash, ha, hb, hc, ha', hb', hc'] using h

theorem updateRow_other {loaded row : CustomerAccount} (current : CustomerAccount) (now : Timestamp)
    (h : row.id ≠ loaded.id) : updateRow loaded current now row = row := by
  rw [updateRow, if_neg fun hm => h hm.1]

theorem updateRow_loaded (loaded current : CustomerAccount) (now : Timestamp) :
    updateRow loaded current now loaded = setColumns loaded current now loaded := by
  rw [updateRow, if_pos ⟨rfl, rfl⟩]

/-! ### Requests on the account 1 at its first version -/

/-- The token, where every digest is 0. -/
def firstToken : String := issue (fun _ => 0) 1 1

theorem length_firstToken : firstToken.length = tokenLength := length_issue _ 1 1

namespace CustomerAccountUpdate

def renamed : CustomerAccountUpdate where
  version := firstToken
  name := some "renamed"
  status := none
  versionLength := length_firstToken
  nameLength := by
    intro n hn
    cases hn
    decide
  statusAllowed _ h := by cases h

/-- It asks for the name that the account has. -/
def kept : CustomerAccountUpdate where
  version := firstToken
  name := some "main"
  status := none
  versionLength := length_firstToken
  nameLength := by
    intro n hn
    cases hn
    decide
  statusAllowed _ h := by cases h

def disabled : CustomerAccountUpdate where
  version := firstToken
  name := none
  status := some .disabled
  versionLength := length_firstToken
  nameLength _ h := by cases h
  statusAllowed _ h := .inr (Option.some.inj h).symm

end CustomerAccountUpdate

end Statement.Account

namespace Statement.Domain.Database
open Account Foundation

def updateAccount (d : Database) (loaded current : CustomerAccount) (now : Timestamp) : Database :=
  { d with customerAccount :=
      d.customerAccount.update (updateRow loaded current now) (updateRow_clash loaded current now) }

theorem findById_updateAccount (d : Database) (loaded current : CustomerAccount) (now : Timestamp)
    (id : UUID) : (d.updateAccount loaded current now).findById id =
      (d.findById id).map (updateRow loaded current now) := by
  simp only [findById, updateAccount, Table.update, List.find?_map]
  congr 2
  funext row
  simp

theorem conflicts_updateAccount (d : Database) (loaded current : CustomerAccount) (now : Timestamp)
    (a : CustomerAccount) : (d.updateAccount loaded current now).customerAccount.conflicts a ↔
      d.customerAccount.conflicts a := by
  have hclash : ∀ b, (updateRow loaded current now b).clash a ↔ b.clash a := by
    intro b
    obtain ⟨h₁, h₂, h₃⟩ := updateRow_keys loaded current now b
    rw [CustomerAccount.clash, CustomerAccount.clash, h₁, h₂, h₃]
  constructor
  · rintro ⟨b, hb, hba⟩
    obtain ⟨x, hx, rfl⟩ := List.mem_map.mp hb
    exact ⟨x, hx, (hclash x).mp hba⟩
  · rintro ⟨b, hb, hba⟩
    exact ⟨_, List.mem_map_of_mem hb, (hclash b).mpr hba⟩

end Statement.Domain.Database
