import Statement.Account.Create
import Statement.Payment.Command
import Statement.Wiring.Request

/-! The outbox of account creation: `create_customer_account` up to every point
at which it may stop.

The rows are flushed on the `get_tx_session` session. The job is a raw statement
on the connection of the session that the job queries are built on, and under
`fast_deps` that is the other one: before the request ends, the job either has
been committed already, when nothing had begun a transaction there, or is rolled
back with a session that never commits. -/
namespace Statement.Wiring
open Domain Foundation Account

/-- `CustomerAccountCreated`. -/
structure CustomerAccountCreated where
  id : UUID
  customerId : UUID
  currency : Currency
  name : Option String
  status : CustomerAccountStatus
  createdAt : Timestamp
  updatedAt : Option Timestamp
  deriving DecidableEq

namespace CustomerAccountCreated

def route : String := "customer-account.created"

def dedupeKey (e : CustomerAccountCreated) : String := route ++ "." ++ e.id.str

end CustomerAccountCreated

/-- What the service enqueues. -/
inductive QueuedJob where
  | customerAccountCreated (e : CustomerAccountCreated)
  | createPayment (c : Payment.CreatePayment)
  deriving DecidableEq

namespace QueuedJob

def entrypoint : QueuedJob → String
  | customerAccountCreated _ => CustomerAccountCreated.route
  | createPayment _ => Payment.CreatePayment.route

def dedupeKey : QueuedJob → String
  | customerAccountCreated e => e.dedupeKey
  | createPayment c => c.dedupeKey

end QueuedJob

/-- The tables of the service and of the job queue, in one database. -/
structure Store where
  database : Database
  jobs : List QueuedJob
  deriving DecidableEq

namespace Store

/-- The three inserts, where their keys have been found free. -/
def insertAccount (account : CustomerAccount) (s : Store) : Store :=
  { s with database :=
      { s.database with customerAccount := s.database.customerAccount.insertOrIgnore account } }

def insertLedger (row : CustomerAccountLedger) (s : Store) : Store :=
  { s with database :=
      { s.database with
        customerAccountLedger := s.database.customerAccountLedger.insertOrIgnore row } }

def enqueue (job : QueuedJob) (s : Store) : Store := { s with jobs := s.jobs ++ [job] }

/-- Is the created job of an account in the queue? -/
def Announced (s : Store) (accountId : UUID) : Prop :=
  ∃ j ∈ s.jobs, j.entrypoint = CustomerAccountCreated.route ∧
    j.dedupeKey = CustomerAccountCreated.route ++ "." ++ accountId.str

def HasAccount (s : Store) (accountId : UUID) : Prop := s.database.findById accountId ≠ none

def HasOpening (s : Store) (accountId : UUID) : Prop := ∃ r ∈ s.database.ledgerOf accountId, r.no = 1

end Store

def created (account : CustomerAccount) : CustomerAccountCreated :=
  { id := account.id, customerId := account.customerId, currency := account.currency
    name := account.name, status := account.status, createdAt := account.createdAt
    updatedAt := some account.updatedAt }

inductive CreateFailure where
  /-- 400. -/
  | integrityError
  /-- 500, raised by `enqueue`. -/
  | duplicateJob
  deriving DecidableEq

def CreateFailure.status : CreateFailure → Nat
  | .integrityError => 400
  | .duplicateJob => 500

/-- What the request does to the database, in order; `leave` is the end of one of
its sessions. -/
inductive Stage (S : Type) where
  | insertAccount
  | insertOpening
  | enqueue
  | leave (session : S)
  deriving DecidableEq

section
variable {S : Type} [DecidableEq S] (P : Providers S)

/-- A statement on the connection of a session: part of the session's transaction
if that has begun one, and otherwise effective at once. -/
def rawStatement (begun : Bool) (session : S) (f : Store → Store) (x : Sessions S Store) :
    Sessions S Store :=
  if begun || !(x.pending session).isEmpty then x.write session f else x.execute f

/-- `begun`: `session.connection()` has begun a transaction in the database. -/
def Stage.run (begun : Bool) (c : CustomerAccountCreate) (x : Sessions S Store) :
    Stage S → Except CreateFailure (Sessions S Store)
  | .insertAccount =>
    let session := P.resolve .getTxSession
    let d := (x.view session).database
    if Create.customerExists d c ∧ ¬ d.customerAccount.conflicts c.account then
      .ok (x.write session (.insertAccount c.account))
    else .error .integrityError
  | .insertOpening =>
    let session := P.resolve .getTxSession
    if (x.view session).database.customerAccountLedger.conflicts c.openingRow then
      .error .integrityError
    else .ok (x.write session (.insertLedger c.openingRow))
  | .enqueue =>
    let session := P.resolve .getSession
    let job := QueuedJob.customerAccountCreated (created c.account)
    if ∃ j ∈ (x.view session).jobs, j.dedupeKey = job.dedupeKey then .error .duplicateJob
    else .ok (rawStatement begun session (.enqueue job) x)
  | .leave session => .ok (x.close P.commits [session])

def stages : List (Stage S) :=
  [.insertAccount, .insertOpening, .enqueue] ++ P.exits.map .leave

/-- What is committed at the start and after each stage, up to the first that
raises. -/
def trace (begun : Bool) (c : CustomerAccountCreate) (x : Sessions S Store) :
    List (Stage S) → List Store
  | [] => [x.committed]
  | stage :: rest =>
    x.committed :: match stage.run P begun c x with
      | .error _ => []
      | .ok x' => trace begun c x' rest

/-- A request that stops after `k` stages, by a crash or because the next one
fails. What is pending then is lost. -/
def stopped (begun : Bool) (c : CustomerAccountCreate) (s : Store) (k : Nat) : List Store :=
  trace P begun c (.fresh s) ((stages P).take k)

end

/-- The id that is drawn for the account is not in use. -/
structure New (c : CustomerAccountCreate) (s : Store) : Prop where
  account : s.database.findById c.entityId = none
  ledger : s.database.ledgerOf c.entityId = []
  job : ∀ j ∈ s.jobs, j.dedupeKey ≠ (created c.account).dedupeKey

/-- Both rows can be inserted. -/
def Insertable (c : CustomerAccountCreate) (s : Store) : Prop :=
  Create.customerExists s.database c ∧ ¬ s.database.customerAccount.conflicts c.account

instance (c : CustomerAccountCreate) (s : Store) : Decidable (Insertable c s) :=
  inferInstanceAs (Decidable (_ ∧ _))

/-- In the end the job is there if and only if the rows are, and at no time is it
seen before the account. -/
structure Atomic (c : CustomerAccountCreate) (states : List Store) : Prop where
  final : ∀ s, states.getLast? = some s →
    (s.Announced c.entityId ↔ s.HasAccount c.entityId ∧ s.HasOpening c.entityId)
  seen : ∀ s ∈ states, s.Announced c.entityId → s.HasAccount c.entityId

/-! ### The states of a run -/

/-- To stop earlier is to see a prefix of the states. -/
theorem trace_take {S : Type} [DecidableEq S] (P : Providers S) (begun : Bool)
    (c : CustomerAccountCreate) (x : Sessions S Store) (l : List (Stage S)) (k : Nat) :
    trace P begun c x (l.take k) = (trace P begun c x l).take (k + 1) := by
  induction l generalizing x k with
  | nil => simp [trace]
  | cons stage rest ih =>
    cases k with
    | zero => simp [trace]
    | succ k =>
      simp only [List.take_succ_cons, trace]
      cases stage.run P begun c x with
      | error f => simp
      | ok x' => exact congrArg _ (ih x' k)

section
variable {c : CustomerAccountCreate} {s : Store}

/-- Both rows inserted. -/
def opened (c : CustomerAccountCreate) (s : Store) : Store :=
  (s.insertAccount c.account).insertLedger c.openingRow

def announced (c : CustomerAccountCreate) (s : Store) : Store :=
  s.enqueue (.customerAccountCreated (created c.account))

theorem New.not_announced (h : New c s) : ¬ s.Announced c.entityId := fun ⟨j, hj, _, hkey⟩ =>
  h.job j hj hkey

theorem New.no_account (h : New c s) : ¬ s.HasAccount c.entityId := not_not.mpr h.account

theorem New.no_ledger (h : New c s) : ¬ s.database.customerAccountLedger.conflicts c.openingRow := by
  rintro ⟨r, hr, hra, _⟩
  have hmem : r ∈ s.database.ledgerOf c.entityId := Database.mem_ledgerOf.mpr ⟨hr, hra⟩
  rw [h.ledger] at hmem
  cases hmem

theorem announced_announced (c : CustomerAccountCreate) (s : Store) :
    (announced c s).Announced c.entityId :=
  ⟨.customerAccountCreated (created c.account), by simp [announced, Store.enqueue], rfl, rfl⟩

theorem opened_hasAccount (h : Insertable c s) : (opened c s).HasAccount c.entityId := by
  obtain ⟨t, ht, hrows⟩ := Table.insert_of_free h.2
  have hmem : c.account ∈ (opened c s).database.customerAccount.rows := by
    show c.account ∈ (s.database.customerAccount.insertOrIgnore c.account).rows
    rw [Table.insertOrIgnore, ht, Option.getD_some, hrows]
    simp
  have hfind : (opened c s).database.findById c.entityId = some c.account :=
    Database.findById_of_mem hmem
  rw [Store.HasAccount, hfind]
  exact Option.some_ne_none _

theorem opened_hasOpening (h : New c s) : (opened c s).HasOpening c.entityId := by
  obtain ⟨t, ht, hrows⟩ := Table.insert_of_free h.no_ledger
  refine ⟨c.openingRow, Database.mem_ledgerOf.mpr ⟨?_, rfl⟩, rfl⟩
  show c.openingRow ∈ (s.database.customerAccountLedger.insertOrIgnore c.openingRow).rows
  rw [Table.insertOrIgnore, ht, Option.getD_some, hrows]
  simp

/-- A creation whose rows clash stops at once. -/
theorem trace_not_insertable {S : Type} [DecidableEq S] (P : Providers S) (begun : Bool)
    (h : ¬ Insertable c s) : trace P begun c (.fresh s) (stages P) = [s] := by
  have hrun : (Stage.insertAccount : Stage S).run P begun c (.fresh s) = .error .integrityError :=
    if_neg h
  simp only [stages, List.cons_append, trace, hrun, Sessions.fresh_committed]

/-- The sessions after the flush. -/
def flushed {S : Type} [DecidableEq S] (P : Providers S) (c : CustomerAccountCreate) (s : Store) :
    Sessions S Store :=
  ((Sessions.fresh s).write (P.resolve .getTxSession) (.insertAccount c.account)).write
    (P.resolve .getTxSession) (.insertLedger c.openingRow)

theorem trace_flushed {S : Type} [DecidableEq S] (P : Providers S) (begun : Bool) (hnew : New c s)
    (h : Insertable c s) : trace P begun c (.fresh s) (stages P) =
      s :: s :: trace P begun c (flushed P c s) (.enqueue :: P.exits.map .leave) := by
  have haccount : (Stage.insertAccount : Stage S).run P begun c (.fresh s) =
      .ok ((Sessions.fresh s).write (P.resolve .getTxSession) (.insertAccount c.account)) := if_pos h
  have hview : (((Sessions.fresh s).write (P.resolve .getTxSession) (.insertAccount c.account)).view
      (P.resolve .getTxSession)).database.customerAccountLedger = s.database.customerAccountLedger := by
    rw [Sessions.view_write_self]
    rfl
  have hopening : (Stage.insertOpening : Stage S).run P begun c
      ((Sessions.fresh s).write (P.resolve .getTxSession) (.insertAccount c.account)) =
        .ok (flushed P c s) := by
    refine if_neg ?_
    rw [hview]
    exact hnew.no_ledger
  simp only [stages, List.cons_append, trace, haccount, hopening]
  rfl

/-- With two sessions the job is there before the rows are, or never. -/
theorem trace_fastDeps (begun : Bool) (hnew : New c s) (h : Insertable c s) :
    trace fastDeps begun c (.fresh s) (stages fastDeps) =
      [s, s, s] ++ if begun then [s, s, opened c s]
        else [announced c s, announced c s, opened c (announced c s)] := by
  have henqueue : (Stage.enqueue : Stage Dependency).run fastDeps begun c (flushed fastDeps c s) =
      .ok (rawStatement begun .getSession (.enqueue (.customerAccountCreated (created c.account)))
        (flushed fastDeps c s)) := if_neg fun ⟨j, hj, hkey⟩ => hnew.job j hj hkey
  rw [trace_flushed fastDeps begun hnew h]
  simp only [trace, henqueue]
  cases begun <;> rfl

/-- With one session they are committed together. -/
theorem trace_testClient (begun : Bool) (hnew : New c s) (h : Insertable c s) :
    trace testClient begun c (.fresh s) (stages testClient) =
      [s, s, s, s, announced c (opened c s)] := by
  have henqueue : (Stage.enqueue : Stage Unit).run testClient begun c (flushed testClient c s) =
      .ok (rawStatement begun () (.enqueue (.customerAccountCreated (created c.account)))
        (flushed testClient c s)) := if_neg fun ⟨j, hj, hkey⟩ => hnew.job j hj hkey
  rw [trace_flushed testClient begun hnew h]
  simp only [trace, henqueue]
  cases begun <;> rfl

/-! ### The outbox -/

/-- States with neither the job nor the account, up to the last of which the run
has come. -/
theorem Atomic.of_untouched {states : List Store} (hnew : New c s) (h : ∀ x ∈ states, x = s) :
    Atomic c states := by
  refine ⟨fun x hx => ?_, fun x hx ha => ?_⟩
  · rw [h x (List.mem_of_getLast? hx)]
    exact ⟨fun ha => absurd ha hnew.not_announced, fun ha => absurd ha.1 hnew.no_account⟩
  · rw [h x hx] at ha
    exact absurd ha hnew.not_announced

/-- **The outbox is not atomic**: the promise is kept exactly when the rows cannot
be inserted or the request stops before the stage that breaks it, which is the
enqueueing itself or, when that has joined a transaction, the commit. -/
theorem outbox_atomic_iff (begun : Bool) (c : CustomerAccountCreate) (s : Store) (k : Nat)
    (hnew : New c s) :
    Atomic c (stopped fastDeps begun c s k) ↔ ¬ (Insertable c s ∧
      (if begun then Stage.leave .getTxSession else .enqueue) ∈ (stages fastDeps).take k) := by
  rw [stopped, trace_take]
  by_cases h : Insertable c s
  · rw [trace_fastDeps begun hnew h]
    cases begun with
    | false =>
      by_cases hk : k ≤ 2
      · have hstage : Stage.enqueue ∉ (stages fastDeps).take k := by
          interval_cases k <;> decide
        refine ⟨fun _ hbad => hstage hbad.2, fun _ => .of_untouched hnew fun x hx => ?_⟩
        interval_cases k <;> simpa using hx
      · obtain ⟨n, rfl⟩ := Nat.exists_eq_add_of_le' (not_le.mp hk)
        have hstage : Stage.enqueue ∈ (stages fastDeps).take (n + 3) := by simp [stages]
        refine ⟨fun hatomic => ?_, fun hbad => absurd ⟨h, hstage⟩ hbad⟩
        -- the job is committed when the account is not
        exact absurd (hatomic.seen (announced c s) (by simp) (announced_announced c s)) hnew.no_account
    | true =>
      by_cases hk : k ≤ 4
      · have hstage : Stage.leave .getTxSession ∉ (stages fastDeps).take k := by
          interval_cases k <;> decide
        refine ⟨fun _ hbad => hstage hbad.2, fun _ => .of_untouched hnew fun x hx => ?_⟩
        interval_cases k <;> simpa using hx
      · obtain ⟨n, rfl⟩ := Nat.exists_eq_add_of_le' (not_le.mp hk)
        have hstage : Stage.leave .getTxSession ∈ (stages fastDeps).take (n + 5) := by
          simp [stages, fastDeps]
        refine ⟨fun hatomic => ?_, fun hbad => absurd ⟨h, hstage⟩ hbad⟩
        -- the account is committed, and the job is gone with its session
        have hannounced : (opened c s).Announced c.entityId := (hatomic.final _ (by simp)).mpr
          ⟨opened_hasAccount h, opened_hasOpening hnew⟩
        exact absurd hannounced hnew.not_announced
  · rw [trace_not_insertable fastDeps begun h]
    refine ⟨fun _ hbad => h hbad.1, fun _ => .of_untouched hnew fun x hx => ?_⟩
    exact List.mem_singleton.mp (List.mem_of_mem_take hx)

/-- With the one session of the tests the outbox is atomic wherever it stops. -/
theorem testClient_atomic (begun : Bool) (c : CustomerAccountCreate) (s : Store) (k : Nat)
    (hnew : New c s) : Atomic c (stopped testClient begun c s k) := by
  rw [stopped, trace_take]
  by_cases h : Insertable c s
  · rw [trace_testClient begun hnew h]
    by_cases hk : k ≤ 3
    · refine .of_untouched hnew fun x hx => ?_
      interval_cases k <;> simpa using hx
    · obtain ⟨n, rfl⟩ := Nat.exists_eq_add_of_le' (not_le.mp hk)
      have hall : (announced c (opened c s)).HasAccount c.entityId := opened_hasAccount h
      refine ⟨fun x hx => ?_, fun x hx ha => ?_⟩
      · obtain rfl : announced c (opened c s) = x := by simpa using hx
        exact ⟨fun _ => ⟨hall, opened_hasOpening hnew⟩, fun _ => announced_announced c _⟩
      · have hcases : x = s ∨ x = announced c (opened c s) := by simpa using hx
        rcases hcases with rfl | rfl
        · exact absurd ha hnew.not_announced
        · exact hall
  · rw [trace_not_insertable testClient begun h]
    exact .of_untouched hnew fun x hx => List.mem_singleton.mp (List.mem_of_mem_take hx)

/-! ### A request -/

/-- One customer, and an empty queue. -/
def newCustomer : Store :=
  ⟨.empty (.single ⟨2, "a@b.c", none, .active, 0, none⟩), []⟩

def firstAccount : CustomerAccountCreate := .sample

theorem firstAccount_new : New firstAccount newCustomer := ⟨rfl, rfl, fun _ h => nomatch h⟩

/-- A request that goes well announces the account too early, or not at all. -/
theorem firstAccount_not_atomic : ¬ Atomic firstAccount (stopped fastDeps false firstAccount newCustomer 5) ∧
    ¬ Atomic firstAccount (stopped fastDeps true firstAccount newCustomer 5) := by
  have hinsertable : Insertable firstAccount newCustomer := by decide
  constructor
  · intro h
    rw [stopped, trace_take, trace_fastDeps false firstAccount_new hinsertable] at h
    exact firstAccount_new.no_account
      (h.seen (announced firstAccount newCustomer) (by simp) (announced_announced _ _))
  · intro h
    rw [stopped, trace_take, trace_fastDeps true firstAccount_new hinsertable] at h
    exact firstAccount_new.not_announced ((h.final (opened firstAccount newCustomer) (by simp)).mpr
      ⟨opened_hasAccount hinsertable, opened_hasOpening firstAccount_new⟩)

/-- One that stops after the flush breaks nothing. -/
theorem firstAccount_stopped : Atomic firstAccount (stopped fastDeps false firstAccount newCustomer 2) :=
  (outbox_atomic_iff false firstAccount newCustomer 2 firstAccount_new).mpr fun h =>
    absurd h.2 (by decide)

end
end Statement.Wiring
