import Statement.Domain.Database

/-! Customers, replicated from `customer.created` events.

The handler looks the customer up and inserts it if it is new. The insert names
the id's value `entity_id`, which is the parameter of `Customer.create` and no
column of the table, so it raises before it reaches the database: the customers
that are there are absorbed, and no other ever comes in. -/
namespace Statement.Subscriber
open Domain Foundation

structure CustomerCreated where
  id : UUID
  email : String
  name : String
  status : String
  createdAt : Timestamp
  updatedAt : Option Timestamp
  deriving DecidableEq

/-- `CustomerStatus(value)`; `none` is the `ValueError`. -/
def customerStatus (value : String) : Option CustomerStatus :=
  if value = "active" then some .active
  else if value = "disabled" then some .disabled
  else none

/-- A value in a statement. -/
inductive Bound where
  | null
  | uuid (value : UUID)
  | text (value : String)
  | status (value : CustomerStatus)
  | timestamp (value : Timestamp)

inductive CustomerFailure where
  | invalidStatus (value : String)
  /-- SQLAlchemy's `CompileError`. -/
  | unconsumedColumnNames (names : List String)
  /-- A column that may not be `NULL` is missing, or has a value of another type. -/
  | integrityError
  deriving DecidableEq

namespace CustomerInsert

/-- The names of the mapped columns. -/
def columns : List String := ["id", "email", "name", "status", "created_at", "updated_at"]

def lookup (values : List (String × Bound)) (column : String) : Bound :=
  ((values.find? (·.1 = column)).map (·.2)).getD .null

def text : Bound → Option String
  | .text value => some value
  | _ => none

def timestamp : Bound → Option Timestamp
  | .timestamp value => some value
  | _ => none

/-- The row of the columns' values. -/
def row (values : List (String × Bound)) : Option Customer :=
  match lookup values "id", lookup values "email", lookup values "created_at" with
  | .uuid id, .text email, .timestamp createdAt =>
    let status := match lookup values "status" with
      | .status value => value
      -- the column's default
      | _ => .active
    some { id, email, name := text (lookup values "name"), status, createdAt,
           updatedAt := timestamp (lookup values "updated_at") }
  | _, _, _ => none

/-- `insert(Customer).values(...)`, compiled: a keyword that is no column raises. -/
def values (keywords : List (String × Bound)) : Except CustomerFailure Customer :=
  let unconsumed := (keywords.map (·.1)).filter (· ∉ columns)
  if unconsumed ≠ [] then .error (.unconsumedColumnNames unconsumed)
  else match row keywords with
    | none => .error .integrityError
    | some customer => .ok customer

end CustomerInsert

namespace CustomerCreated

/-- The keywords of the handler's insert. -/
def keywords (event : CustomerCreated) (status : CustomerStatus) : List (String × Bound) :=
  [("entity_id", .uuid event.id), ("email", .text event.email), ("name", .text event.name),
    ("status", .status status), ("created_at", .timestamp event.createdAt),
    ("updated_at", event.updatedAt.elim .null .timestamp)]

/-- The customer that the event tells of. -/
def customer (event : CustomerCreated) (status : CustomerStatus) : Customer :=
  { id := event.id, email := event.email, name := some event.name, status,
    createdAt := event.createdAt, updatedAt := event.updatedAt }

end CustomerCreated

def findCustomer (d : Database) (entityId : UUID) : Option Customer :=
  d.customer.rows.find? (·.id = entityId)

def onCustomerCreated (d : Database) (event : CustomerCreated) : Except CustomerFailure Database :=
  match findCustomer d event.id with
  | some _ => .ok d
  | none =>
    match customerStatus event.status with
    | none => .error (.invalidStatus event.status)
    | some status =>
      match CustomerInsert.values (event.keywords status) with
      | .error f => .error f
      | .ok customer => .ok { d with customer := d.customer.insertOrIgnore customer }

/-- A delivery: `get_tx_session` commits what the handler did, or rolls it back. -/
def deliver (d : Database) (event : CustomerCreated) : Database :=
  match onCustomerCreated d event with
  | .ok d' => d'
  | .error _ => d

def deliveries (d : Database) (events : List CustomerCreated) : Database := events.foldl deliver d

/-- The handler returns normally for the event that comes after `earlier`. -/
def Processed (d : Database) (earlier : List CustomerCreated) (event : CustomerCreated) : Prop :=
  ∃ d', onCustomerCreated (deliveries d earlier) event = .ok d'

/-- Some stored customer has the id. -/
def Known (d : Database) (id : UUID) : Prop := ∃ row ∈ d.customer.rows, row.id = id

/-- What replication promises of a sequence of deliveries. -/
structure Replicates (d : Database) (events : List CustomerCreated) : Prop where
  stored : ∀ earlier event later, events = earlier ++ event :: later → Processed d earlier event →
    Known (deliveries d (earlier ++ [event])) event.id
  /-- The first event of a new customer that is processed is what is stored from then on. -/
  first : ∀ earlier event later, events = earlier ++ event :: later → Processed d earlier event →
    ¬ Known d event.id →
    (∀ before other between, earlier = before ++ other :: between → other.id = event.id →
      ¬ Processed d before other) →
    ∃ status, customerStatus event.status = some status ∧ ∀ after rest, later = after ++ rest →
      event.customer status ∈ (deliveries d (earlier ++ event :: after)).customer.rows
  redelivered : ∀ earlier event later, events = earlier ++ event :: later →
    Known (deliveries d earlier) event.id → deliveries d (earlier ++ [event]) = deliveries d earlier
  accepted : ∀ earlier event later, events = earlier ++ event :: later →
    (customerStatus event.status).isSome →
    (∀ row ∈ (deliveries d earlier).customer.rows, row.id ≠ event.id → row.email ≠ event.email) →
    Processed d earlier event
  unchanged : ∀ earlier event later, events = earlier ++ event :: later →
    ¬ Processed d earlier event → deliveries d (earlier ++ [event]) = deliveries d earlier

theorem findCustomer_isSome {d : Database} {id : UUID} : (findCustomer d id).isSome ↔ Known d id := by
  simp [findCustomer, Known]

theorem values_keywords (event : CustomerCreated) (status : CustomerStatus) :
    CustomerInsert.values (event.keywords status) = .error (.unconsumedColumnNames ["entity_id"]) := by
  have hunconsumed : ((event.keywords status).map (·.1)).filter (· ∉ CustomerInsert.columns) =
      ["entity_id"] := rfl
  simp only [CustomerInsert.values, hunconsumed, ne_eq, reduceCtorEq, not_false_eq_true, if_true]

/-- A known customer is absorbed, and a new one raises. -/
theorem onCustomerCreated_ok {d d' : Database} {event : CustomerCreated} :
    onCustomerCreated d event = .ok d' ↔ Known d event.id ∧ d' = d := by
  rw [← findCustomer_isSome]
  unfold onCustomerCreated
  cases hfound : findCustomer d event.id with
  | some row => simp [eq_comm]
  | none => cases hstatus : customerStatus event.status <;> simp [values_keywords]

theorem deliver_eq (d : Database) (event : CustomerCreated) : deliver d event = d := by
  unfold deliver
  split
  · rename_i h
    exact (onCustomerCreated_ok.mp h).2
  · rfl

theorem deliveries_eq (d : Database) (events : List CustomerCreated) : deliveries d events = d := by
  induction events with
  | nil => rfl
  | cons event events ih =>
    rw [deliveries, List.foldl_cons, deliver_eq]
    exact ih

theorem processed_iff {d : Database} {earlier : List CustomerCreated} {event : CustomerCreated} :
    Processed d earlier event ↔ Known d event.id := by
  rw [Processed, deliveries_eq]
  constructor
  · intro ⟨d', h⟩
    exact (onCustomerCreated_ok.mp h).1
  · intro h
    exact ⟨d, onCustomerCreated_ok.mpr ⟨h, rfl⟩⟩

/-- **Replication works exactly for the events that ask for nothing new.** -/
theorem replicates_iff (d : Database) (events : List CustomerCreated) :
    Replicates d events ↔ ∀ event ∈ events, Known d event.id ∨ customerStatus event.status = none ∨
      ∃ row ∈ d.customer.rows, row.email = event.email := by
  constructor
  · intro h event he
    obtain ⟨earlier, later, hsplit⟩ := List.append_of_mem he
    by_contra hnew
    obtain ⟨hunknown, hstatus, hemail⟩ := not_or.mp hnew |>.imp_right not_or.mp
    have haccepted := h.accepted earlier event later hsplit (Option.isSome_iff_ne_none.mpr hstatus)
    rw [deliveries_eq, processed_iff] at haccepted
    exact hunknown (haccepted fun row hrow _ hsame => hemail ⟨row, hrow, hsame⟩)
  · intro h
    refine ⟨fun earlier event later _ hp => ?_, fun earlier event later _ hp hnew _ => ?_,
      fun earlier event later _ _ => by rw [deliveries_eq, deliveries_eq],
      fun earlier event later hsplit hstatus hemail => ?_,
      fun earlier event later _ _ => by rw [deliveries_eq, deliveries_eq]⟩
    · rw [deliveries_eq]
      exact processed_iff.mp hp
    · exact absurd (processed_iff.mp hp) hnew
    · rw [processed_iff]
      rw [deliveries_eq] at hemail
      rcases h event (hsplit ▸ by simp) with hknown | hinvalid | ⟨row, hrow, hsame⟩
      · exact hknown
      · rw [hinvalid] at hstatus
        cases hstatus
      · by_contra hunknown
        exact hemail row hrow (fun hid => hunknown ⟨row, hrow, hid⟩) hsame

/-- The first customer of all. -/
def firstCustomer : CustomerCreated := ⟨1, "ann@example.com", "Ann", "active", 0, none⟩

theorem firstCustomer_raises : ¬ Replicates (.empty .empty) [firstCustomer] ∧
    onCustomerCreated (.empty .empty) firstCustomer =
      .error (.unconsumedColumnNames ["entity_id"]) := by
  refine ⟨fun h => ?_, by decide⟩
  obtain ⟨d', hd'⟩ := h.accepted [] firstCustomer [] rfl (by decide) (fun _ hrow => (nomatch hrow))
  have hraises : onCustomerCreated (.empty .empty) firstCustomer =
      .error (.unconsumedColumnNames ["entity_id"]) := by decide
  rw [deliveries, List.foldl_nil, hraises] at hd'
  cases hd'

end Statement.Subscriber
