import Statement.Foundation.Table
import Statement.Foundation.Query
import Statement.Domain.Entities

/-! The database and the statements that read it.

The tables carry the unique constraints of the schema. The queries are those of
`CustomerAccountRepositoryImpl` and of the point lookups of
`CustomerAccountLedgerVerificationRepositoryImpl`, each on one snapshot. -/
namespace Statement.Domain
open Foundation

def Customer.clash (a b : Customer) : Prop := a.id = b.id ∨ a.email = b.email

def CustomerAccount.clash (a b : CustomerAccount) : Prop :=
  a.id = b.id ∨ (a.customerId = b.customerId ∧ a.currency = b.currency)

def CustomerAccountHistory.clash (a b : CustomerAccountHistory) : Prop :=
  a.account.id = b.account.id ∧ a.account.version = b.account.version

def CustomerAccountLedger.clash (a b : CustomerAccountLedger) : Prop :=
  a.accountId = b.accountId ∧ (a.no = b.no ∨ a.operationId = b.operationId)

def CustomerAccountLedgerVerified.clash (a b : CustomerAccountLedgerVerified) : Prop :=
  a.accountId = b.accountId ∧ a.throughNo = b.throughNo

/-- The primary key, and the partial index on open incidents. -/
def CustomerAccountLedgerDiscrepancy.clash (a b : CustomerAccountLedgerDiscrepancy) : Prop :=
  a.discrepancyId = b.discrepancyId ∨
    (a.accountId = b.accountId ∧ a.resolvedAt = none ∧ b.resolvedAt = none)

instance : DecidableRel Customer.clash := fun _ _ => inferInstanceAs (Decidable (_ ∨ _))
instance : DecidableRel CustomerAccount.clash := fun _ _ => inferInstanceAs (Decidable (_ ∨ _))
instance : DecidableRel CustomerAccountHistory.clash := fun _ _ => inferInstanceAs (Decidable (_ ∧ _))
instance : DecidableRel CustomerAccountLedger.clash := fun _ _ => inferInstanceAs (Decidable (_ ∧ _))
instance : DecidableRel CustomerAccountLedgerVerified.clash := fun _ _ =>
  inferInstanceAs (Decidable (_ ∧ _))
instance : DecidableRel CustomerAccountLedgerDiscrepancy.clash := fun _ _ =>
  inferInstanceAs (Decidable (_ ∨ _))

structure Database where
  customer : Table Customer Customer.clash
  customerAccount : Table CustomerAccount CustomerAccount.clash
  customerAccountHistory : Table CustomerAccountHistory CustomerAccountHistory.clash
  customerAccountLedger : Table CustomerAccountLedger CustomerAccountLedger.clash
  customerAccountLedgerVerified :
    Table CustomerAccountLedgerVerified CustomerAccountLedgerVerified.clash
  customerAccountLedgerDiscrepancy :
    Table CustomerAccountLedgerDiscrepancy CustomerAccountLedgerDiscrepancy.clash
  deriving DecidableEq

namespace Database

/-- No account yet, and so nothing that belongs to one. -/
def empty (customer : Table Customer Customer.clash) : Database :=
  ⟨customer, .empty, .empty, .empty, .empty, .empty⟩

def findById (d : Database) (entityId : UUID) : Option CustomerAccount :=
  d.customerAccount.rows.find? (·.id = entityId)

def ledgerOf (d : Database) (accountId : UUID) : List CustomerAccountLedger :=
  d.customerAccountLedger.rows.filter (·.accountId = accountId)

def findLastLedgerEntry (d : Database) (accountId : UUID) : Option CustomerAccountLedger :=
  (orderBy (fun r => OrderDual.toDual r.no) (d.ledgerOf accountId)).head?

def hasLedgerOperation (d : Database) (accountId operationId : UUID) : Bool :=
  (d.ledgerOf accountId).any (·.operationId = operationId)

def findOpenDiscrepancy (d : Database) (accountId : UUID) : Option CustomerAccountLedgerDiscrepancy :=
  d.customerAccountLedgerDiscrepancy.rows.find? fun i =>
    i.accountId = accountId ∧ i.resolvedAt = none

def findLatestCheckpoint (d : Database) (accountId : UUID) : Option CustomerAccountLedgerVerified :=
  (orderBy (fun c => OrderDual.toDual c.throughNo)
    (d.customerAccountLedgerVerified.rows.filter (·.accountId = accountId))).head?

def findLedgerBalance (d : Database) (accountId : UUID) (no : Int) : Option Numeric :=
  ((d.ledgerOf accountId).find? (·.no = no)).map (·.balance)

theorem mem_ledgerOf {d : Database} {a : UUID} {r : CustomerAccountLedger} :
    r ∈ d.ledgerOf a ↔ r ∈ d.customerAccountLedger.rows ∧ r.accountId = a := by
  simp [ledgerOf]

theorem findById_mem {d : Database} {id : UUID} {a : CustomerAccount} (h : d.findById id = some a) :
    a ∈ d.customerAccount.rows ∧ a.id = id :=
  ⟨List.mem_of_find?_eq_some h, by simpa using List.find?_some h⟩

theorem findById_none {d : Database} {id : UUID} :
    d.findById id = none ↔ ∀ a ∈ d.customerAccount.rows, a.id ≠ id := by
  simp [findById]

/-- The primary key: an account is the one its id finds. -/
theorem findById_of_mem {d : Database} {a : CustomerAccount} (h : a ∈ d.customerAccount.rows) :
    d.findById a.id = some a := by
  cases hf : d.findById a.id with
  | none => exact absurd rfl (findById_none.mp hf a h)
  | some b =>
    obtain ⟨hb, hid⟩ := findById_mem hf
    have hs : ∀ a b : CustomerAccount, a.clash b → b.clash a := by
      rintro a b (h | ⟨h₁, h₂⟩)
      · exact .inl h.symm
      · exact .inr ⟨h₁.symm, h₂.symm⟩
    rw [Table.eq_of_clash hs hb h (.inl hid)]

/-- However the account table is read, no account comes twice. -/
theorem accountIds_nodup {d : Database} {scan : List CustomerAccount}
    (h : scan.Perm d.customerAccount.rows) : (scan.map (·.id)).Nodup := by
  refine (h.map (·.id)).nodup_iff.mpr (List.pairwise_map.mpr ?_)
  exact d.customerAccount.distinct.imp fun hc he => hc (.inl he)

theorem hasLedgerOperation_eq_false {d : Database} {a op : UUID} :
    d.hasLedgerOperation a op = false ↔ ∀ r ∈ d.ledgerOf a, r.operationId ≠ op := by
  simp [hasLedgerOperation]

/-- Where the rows of an account are stored in the order of their numbers, the
last entry is the last row. -/
theorem findLastLedgerEntry_eq {d : Database} {a : UUID} {rows : List CustomerAccountLedger}
    {last : CustomerAccountLedger} (h : d.ledgerOf a = rows ++ [last])
    (hlt : ∀ r ∈ rows, r.no < last.no) : d.findLastLedgerEntry a = some last := by
  rw [findLastLedgerEntry, h]
  exact head_orderBy_append hlt

/-! ### What a write does to the reads -/

theorem ledgerOf_congr {d d' : Database} (h : d'.customerAccountLedger = d.customerAccountLedger)
    (a : UUID) : d'.ledgerOf a = d.ledgerOf a := by
  rw [ledgerOf, ledgerOf, h]

theorem findById_congr {d d' : Database} (h : d'.customerAccount = d.customerAccount) (a : UUID) :
    d'.findById a = d.findById a := by
  rw [findById, findById, h]

/-- A ledger row goes to the end of its account's rows and to no other's. -/
theorem ledgerOf_insert {d d' : Database} {row : CustomerAccountLedger}
    (h : d.customerAccountLedger.insert row = some d'.customerAccountLedger) (a : UUID) :
    d'.ledgerOf a = d.ledgerOf a ++ if row.accountId = a then [row] else [] := by
  rw [ledgerOf, (Table.insert_some h).2, List.filter_append, ← ledgerOf]
  by_cases ha : row.accountId = a <;> simp [ha]

/-- An account is inserted under an id that found none. -/
theorem findById_insert {d d' : Database} {account : CustomerAccount}
    (h : d.customerAccount.insert account = some d'.customerAccount) (a : UUID) :
    d.findById account.id = none ∧
      d'.findById a = if account.id = a then some account else d.findById a := by
  obtain ⟨hfree, hrows⟩ := Table.insert_some h
  have hnone : d.findById account.id = none :=
    findById_none.mpr fun b hb he => hfree ⟨b, hb, .inl he⟩
  refine ⟨hnone, ?_⟩
  rw [findById, hrows, List.find?_append, ← findById]
  by_cases ha : account.id = a
  · rw [← ha, hnone]
    simp
  · cases d.findById a <;> simp [ha]

end Database
end Statement.Domain
