import Statement.Persistence.Recipe

/-! The recipe on `customer_account`, the one class of the service that is versioned.

On its columns the loop over any mapped class is the `create_version` of the accounts. -/
namespace Statement.Persistence
open Domain

/-- The columns of `customer_account`. -/
inductive AccountColumn where
  | id | customerId | currency | name | status | createdAt | updatedAt | updatedBy
  deriving DecidableEq

namespace AccountColumn

abbrev Value : AccountColumn → Type
  | id | customerId | updatedBy => UUID
  | currency => Currency
  | name => Option String
  | status => CustomerAccountStatus
  | createdAt | updatedAt => Timestamp

instance decidableEq (k : AccountColumn) : DecidableEq (Value k) := by
  cases k <;> exact inferInstance

def all : List AccountColumn := [id, customerId, currency, name, status, createdAt, updatedAt, updatedBy]

end AccountColumn

inductive AccountRelationship where
  | customer
  deriving DecidableEq

/-- The mapper of `CustomerAccount` beside its history's. -/
def accountMapping : Mapping AccountColumn AccountRelationship where
  historyMappers := [historyMapper AccountColumn.all]
  relationships := [.customer]
  localColumns _ := [true]
  primaryKey k := k = .id
  covers k := by cases k <;> decide

/-- What the database computes in an `UPDATE` of an account. -/
def onUpdate (now : Timestamp) : (k : AccountColumn) → Option k.Value
  | .updatedAt => some now
  | _ => none

/-- An account, column by column. -/
def columns (a : CustomerAccount) : (k : AccountColumn) → k.Value
  | .id => a.id
  | .customerId => a.customerId
  | .currency => a.currency
  | .name => a.name
  | .status => a.status
  | .createdAt => a.createdAt
  | .updatedAt => a.updatedAt
  | .updatedBy => a.updatedBy

theorem columns_inj {a b : CustomerAccount} (hversion : a.version = b.version) : columns a = columns b ↔ a = b := by
  constructor
  · intro h
    exact CustomerAccount.ext (congrFun h .id) (congrFun h .customerId) (congrFun h .currency) (congrFun h .name)
      (congrFun h .status) (congrFun h .createdAt) (congrFun h .updatedAt) (congrFun h .updatedBy) hversion
  · intro h
    rw [h]

/-- The instance of an account that was loaded and has come to be `current`. -/
structure InstanceOf (loaded current : CustomerAccount) (i : Instance AccountColumn.Value AccountRelationship) :
    Prop where
  was : ∀ k, (i.attributes k).Loaded (columns loaded k)
  holds : ∀ k, (i.attributes k).current = some (columns current k)
  version : i.version = ⟨some loaded.version, none⟩
  related : ∀ r, i.relationships r = false

/-- **On an account the recipe is its `create_version`.** -/
theorem createVersion_account {loaded current : CustomerAccount} (row : Option (Row AccountColumn.Value))
    {i : Instance AccountColumn.Value AccountRelationship} (now : Timestamp) (h : InstanceOf loaded current i)
    (hversion : current.version = loaded.version) :
    createVersion accountMapping row i false = some ((Account.createVersion loaded current now).elim (none, i)
      fun x => (some ⟨x.1.account.version, fun k => some (columns x.1.account k)⟩,
        { i with version := ⟨some x.2.version, some (some x.1.account.version)⟩ })) := by
  have hchanged : Changed accountMapping (columns loaded) i ↔ current ≠ loaded := by
    rw [← (columns_inj hversion).ne]
    constructor
    · rintro (⟨k, hk⟩ | ⟨r, _, hr, _⟩)
      · intro hsame
        exact hk (by rw [h.holds, hsame])
      · rw [h.related] at hr
        cases hr
    · intro hne
      obtain ⟨k, hk⟩ := Function.ne_iff.mp hne
      refine .inl ⟨k, fun hsame => hk ?_⟩
      rw [h.holds] at hsame
      exact Option.some.inj hsame
  obtain ⟨harchives, hidle⟩ := @createVersion_loaded _ _ _ _ _ accountMapping row _ i false h.was loaded.version
    (by rw [h.version])
  rw [Account.createVersion_eq loaded current now hversion]
  by_cases heq : current = loaded
  · rw [if_pos heq]
    exact hidle (by simp [hchanged, heq])
  · rw [if_neg heq, harchives (.inl (hchanged.mpr heq)), h.version]
    rfl

end Statement.Persistence
