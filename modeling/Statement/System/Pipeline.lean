import Statement.Consumer.Entrypoints
import Statement.Subscriber.PaymentJobs
import Statement.System.Serial
import Statement.Verification.Incremental

/-! A payment on its way from the broker to the ledger.

The broker delivers events, the subscriber enqueues their commands, workers pick the
jobs and run the handler in the executor, and the queue settles what comes of a run.
A worker can be lost between the commit of its transaction and the settling of its
job, and the job is picked again. All the while other requests commit. Each handler
is one step here: that is what their statements come to (`serializable`). -/
namespace Statement.System
open Domain Foundation Account Payment Verification Consumer Subscriber

structure Pipeline where
  intake : Intake
  database : Database

inductive PipelineStep where
  | deliver (m : PaymentMessage)
  | pick (i : Nat)
  /-- The run of a picked job ends, and the queue is told. -/
  | finish (i : Nat) (now : Timestamp)
  /-- The run of a picked job ends, and the queue is not told. -/
  | lose (i : Nat) (now : Timestamp)
  | other (q : Request)

/-- A job's transaction is the handler's. -/
def Request.isPayment : Request → Bool
  | .payment _ => true
  | _ => false

namespace Pipeline

section
variable (mac : VersionToken.Digest) (C : MessageClass CreatePayment) (texts : Texts)

/-- The handler on the payload of a job. -/
def handle (now : Timestamp) (s : Pipeline) (j : PaymentJob) : Consumer.Outcome × Database :=
  handleCreatePayment C texts now s.database (some (C.toPayloadBytes j.command))

/-- The enqueued command is effective at once. -/
def Next (s : Pipeline) : PipelineStep → Pipeline → Prop
  | .deliver m, s' => s' = { s with intake := s.intake.deliver false m }
  | .pick i, s' => ∃ intake, s.intake.next false (.pick i) = some intake ∧ s' = { s with intake }
  | .finish i now, s' => ∃ j intake, s.intake.jobs[i]? = some j ∧
      s.intake.next false (.settle i (s.handle C texts now j).1) = some intake ∧
      s' = ⟨intake, (s.handle C texts now j).2⟩
  | .lose i now, s' => ∃ j, s.intake.jobs[i]? = some j ∧ j.status = .picked ∧
      s' = { s with database := (s.handle C texts now j).2 }
  | .other q, s' => q.isPayment = false ∧ s'.intake = s.intake ∧ Call mac s.database s'.database q

def Run : Pipeline → List PipelineStep → Pipeline → Prop
  | s, [], s' => s' = s
  | s, a :: as, s' => ∃ s₁, s.Next mac C texts a s₁ ∧ Run s₁ as s'

end

def start (d : Database) : Pipeline := ⟨.start, d⟩

/-- The deliveries of a run. -/
def delivered : PipelineStep → Option PaymentMessage
  | .deliver m => some m
  | _ => none

def finishes (i : Nat) : PipelineStep → Bool
  | .finish k _ => k = i
  | _ => false

end Pipeline

/-- The ledger row of a command. -/
structure RowOf (e : CreatePayment) (r : CustomerAccountLedger) : Prop where
  accountId : r.accountId = e.accountId
  operationId : r.operationId = e.id
  operationType : r.operationType = e.type
  amount : r.amount.cents = e.signedAmount

/-- The row that a creation inserts. -/
structure OpeningRow (r : CustomerAccountLedger) : Prop where
  operationType : r.operationType = .create
  operationId : r.operationId = r.accountId
  no : r.no = 1
  amount : r.amount = .zero
  balance : r.balance = .zero

/-! ### What the others do to the ledger -/

section
variable {d d' : Database} {mac : VersionToken.Digest}

/-- The rows that a call adds to the ledger. -/
def AddsRows (d d' : Database) (P : CustomerAccountLedger → Prop) : Prop :=
  ∃ rows, d'.customerAccountLedger.rows = d.customerAccountLedger.rows ++ rows ∧ ∀ r ∈ rows, P r

theorem AddsRows.none {P : CustomerAccountLedger → Prop}
    (h : d'.customerAccountLedger = d.customerAccountLedger) : AddsRows d d' P :=
  ⟨[], by rw [h, List.append_nil], fun _ hr => by cases hr⟩

theorem AddsRows.insert {P : CustomerAccountLedger → Prop} {row : CustomerAccountLedger}
    (h : d.customerAccountLedger.insert row = some d'.customerAccountLedger) (hrow : P row) : AddsRows d d' P := by
  refine ⟨[row], (Table.insert_some h).2, fun r hr => ?_⟩
  rw [List.mem_singleton.mp hr]
  exact hrow

theorem AddsRows.hasLedgerOperation {P : CustomerAccountLedger → Prop} (h : AddsRows d d' P) {a op : UUID}
    (hseen : d.hasLedgerOperation a op = true) : d'.hasLedgerOperation a op = true := by
  obtain ⟨rows, hrows, _⟩ := h
  have hledger : d'.ledgerOf a = d.ledgerOf a ++ rows.filter (·.accountId = a) := by
    rw [Database.ledgerOf, hrows, List.filter_append]
    rfl
  rw [Database.hasLedgerOperation, hledger, List.any_append]
  rw [Database.hasLedgerOperation] at hseen
  rw [hseen, Bool.true_or]

theorem payment_rows {now : Timestamp} {e : CreatePayment} (h : Job.onCreatePayment now d e = .ok d') :
    AddsRows d d' (RowOf e) ∧ d'.hasLedgerOperation e.accountId e.id = true := by
  rcases (Job.onCreatePayment_ok h).2 with ⟨hseen, rfl⟩ |
    ⟨previous, row, t, _, hlast, _, hrow, hinsert, rfl⟩
  · exact ⟨.none rfl, hseen⟩
  · obtain ⟨haccount, _, hamount, _, htype, hoperation⟩ := Job.entry_store hrow
    have hprevious := (Database.mem_ledgerOf.mp (mem_orderBy.mp (List.mem_of_mem_head? hlast))).2
    have hrowOf : RowOf e row := ⟨haccount.trans hprevious, hoperation, htype, hamount⟩
    have hledger := @Database.ledgerOf_insert d { d with customerAccountLedger := t } _ hinsert e.accountId
    refine ⟨.insert hinsert hrowOf, ?_⟩
    rw [Database.hasLedgerOperation, hledger, if_pos hrowOf.accountId, List.any_append]
    simp [hoperation]

theorem other_rows {q : Request} (hq : q.isPayment = false) (h : Call mac d d' q) :
    AddsRows d d' OpeningRow := by
  cases q with
  | payment e => cases hq
  | create c =>
    have h : createCustomerAccount d c = some d' := h
    unfold createCustomerAccount at h
    split at h
    · simp only [Option.bind_eq_bind, Option.bind_eq_some_iff, Option.some.injEq] at h
      obtain ⟨_, _, _, hledger, rfl⟩ := h
      exact .insert hledger ⟨rfl, rfl, rfl, rfl, rfl⟩
    · cases h
  | change r =>
    obtain ⟨now, h⟩ := h
    unfold changeCustomerAccount at h
    split at h
    · cases h
    · split at h
      · cases h
        exact .none rfl
      · split at h
        · cases h
        · cases h
          exact .none rfl
  | verify r =>
    obtain ⟨now, scan, clock, hscan, h⟩ := h
    rcases run_cases (i := ⟨r.params now, scan, clock⟩) hscan with ⟨_, hnone⟩ | ⟨d₁, hd₁, hadvanced⟩
    · cases h.symm.trans hnone
    · obtain rfl := Option.some.inj (h.symm.trans hd₁)
      exact .none hadvanced.untouched.ledger

end

end Statement.System

namespace Statement.Subscriber
open Consumer Payment

/-- What becomes of a job after a run. -/
inductive PaymentJob.Settled (j : PaymentJob) (outcome : Outcome) : PaymentJob → Prop where
  | successful (h : outcome = .ok ()) : Settled j outcome { j with status := .successful }
  | failed (e : Exception) (h : outcome = .error e) (hlast : e.type = .terminalJobError ∨ 3 ≤ j.attempts) :
    Settled j outcome { j with status := .failed }
  | again (e : Exception) (h : outcome = .error e) (hlt : j.attempts < 3) :
    Settled j outcome { j with attempts := j.attempts + 1, status := .queued }

theorem PaymentJob.settled (j : PaymentJob) (outcome : Outcome) : j.Settled outcome (j.settle outcome) := by
  cases outcome with
  | ok u => exact .successful rfl
  | error e =>
    by_cases hterminal : e.type = .terminalJobError
    · have hsettle : j.settle (.error e) = { j with status := .failed } := by
        simp [settle, DlqRetryEntrypointExecutor.execute, hterminal, DlqRetryEntrypointExecutor.fail]
      rw [hsettle]
      exact .failed e rfl (.inl hterminal)
    · by_cases hbudget : 3 ≤ j.attempts
      · have hsettle : j.settle (.error e) = { j with status := .failed } := by
          simp [settle, DlqRetryEntrypointExecutor.execute, hterminal, DlqRetryEntrypointExecutor.fail, hbudget,
            DlqRetryEntrypointExecutor.registered]
        rw [hsettle]
        exact .failed e rfl (.inr hbudget)
      · have hsettle : j.settle (.error e) = { j with attempts := j.attempts + 1, status := .queued } := by
          simp [settle, DlqRetryEntrypointExecutor.execute, hterminal, hbudget,
            DlqRetryEntrypointExecutor.registered]
        rw [hsettle]
        exact .again e rfl (by omega)

/-- An event is rejected, or its command is enqueued. -/
theorem Intake.deliver_false (s : Intake) (m : PaymentMessage) :
    s.deliver false m = { s with deadLettered := s.deadLettered ++ [m] } ∨
      s.deliver false m = { s with
        jobs := s.jobs ++ [⟨m.command, 0, .queued⟩], acknowledged := s.acknowledged ++ [m] } := by
  by_cases h : ∃ j ∈ s.jobs, j.Live ∧ j.command.dedupeKey = m.command.dedupeKey
  · exact .inl (by simp only [deliver, enqueue, if_pos h])
  · exact .inr (by simp only [deliver, enqueue, if_neg h, Bool.false_eq_true, if_false])

/-- How often the queue has been told of an end of the job's runs. -/
def PaymentJob.ends (j : PaymentJob) : Nat := if j.Live then j.attempts else j.attempts + 1

theorem PaymentJob.ends_of_live {j : PaymentJob} (h : j.Live) : j.ends = j.attempts := if_pos h

theorem PaymentJob.settle_ends {j : PaymentJob} (h : j.status = .picked) (outcome : Outcome) :
    (j.settle outcome).ends = j.ends + 1 := by
  have hsettled := j.settled outcome
  generalize j.settle outcome = k at hsettled ⊢
  rw [ends_of_live (.inr h)]
  cases hsettled with
  | successful _ => simp [ends, Live]
  | failed e _ _ => simp [ends, Live]
  | again e _ _ => simp [ends, Live]

end Statement.Subscriber

namespace Statement.System
open Domain Foundation Account Payment Verification Consumer Subscriber

/-- Where every accepted payment is. -/
structure Accounted (s : Pipeline) : Prop where
  /-- The jobs are the acknowledged events', in their order. -/
  kept : s.intake.jobs.map (·.command) = s.intake.acknowledged.map (·.command)
  budget : ∀ j ∈ s.intake.jobs, j.attempts ≤ 3
  /-- What the queue has as done is an operation of the ledger. -/
  applied : ∀ j ∈ s.intake.jobs, j.status = .successful →
    s.database.hasLedgerOperation j.command.accountId j.command.id = true
  /-- What is in the ledger came with its account or through the queue. -/
  backed : ∀ r ∈ s.database.customerAccountLedger.rows, OpeningRow r ∨
    ∃ e ∈ s.intake.jobs.map (·.command), RowOf e r

/-- A job that is done has its row, unless its id is its account's, or that of another
command on the account. -/
theorem Accounted.stored {s : Pipeline} (h : Accounted s) {j : PaymentJob} (hj : j ∈ s.intake.jobs)
    (hdone : j.status = .successful) (hid : j.command.id ≠ j.command.accountId)
    (hown : ∀ e ∈ s.intake.jobs.map (·.command), e.accountId = j.command.accountId → e.id = j.command.id →
      e = j.command) :
    ∃ r ∈ s.database.customerAccountLedger.rows, RowOf j.command r := by
  obtain ⟨r, hr, hop⟩ := List.any_eq_true.mp (h.applied j hj hdone)
  obtain ⟨hmem, haccount⟩ := Database.mem_ledgerOf.mp hr
  have hop : r.operationId = j.command.id := of_decide_eq_true hop
  rcases h.backed r hmem with hopens | ⟨e, he, hrow⟩
  · exact absurd (hop.symm.trans (hopens.operationId.trans haccount)) hid
  · obtain rfl := hown e he (hrow.accountId.symm.trans haccount) (hrow.operationId.symm.trans hop)
    exact ⟨r, hmem, hrow⟩

section
variable {mac : VersionToken.Digest} {C : MessageClass CreatePayment} {texts : Texts} {s s' : Pipeline}

/-- What a run of the handler leaves in the ledger. -/
theorem handle_rows (C : MessageClass CreatePayment) (texts : Texts) (now : Timestamp) (s : Pipeline) (j : PaymentJob) :
    AddsRows s.database (s.handle C texts now j).2 (RowOf j.command) ∧
      ((s.handle C texts now j).1 = .ok () →
        (s.handle C texts now j).2.hasLedgerOperation j.command.accountId j.command.id = true) := by
  unfold Pipeline.handle
  rcases handleCreatePayment_payload C texts now s.database j.command with ⟨e, heq⟩ | ⟨d', heq, hok⟩
  · rw [heq]
    exact ⟨.none rfl, fun h => by cases h⟩
  · rw [heq]
    exact ⟨(payment_rows hok).1, fun _ => (payment_rows hok).2⟩

theorem map_set_self {α β : Type} {f : α → β} {l : List α} {i : Nat} {a b : α} (hi : l[i]? = some a)
    (h : f b = f a) : (l.set i b).map f = l.map f := by
  have hget : (l.map f)[i]? = some (f a) := by rw [List.getElem?_map, hi, Option.map_some]
  obtain ⟨hlt, hget⟩ := List.getElem?_eq_some_iff.mp hget
  rw [List.map_set, h, ← hget, List.set_getElem_self]

/-- What a step does that keeps the commands and only adds rows that are accounted for. -/
theorem Accounted.move (h : Accounted s) {jobs : List PaymentJob} {d' : Database}
    (hcommands : jobs.map (·.command) = s.intake.jobs.map (·.command)) (hbudget : ∀ j ∈ jobs, j.attempts ≤ 3)
    (happlied : ∀ j ∈ jobs, j.status = .successful →
      d'.hasLedgerOperation j.command.accountId j.command.id = true)
    (hrows : AddsRows s.database d' fun r => OpeningRow r ∨
      ∃ e ∈ s.intake.jobs.map (·.command), RowOf e r) :
    Accounted ⟨{ s.intake with jobs }, d'⟩ := by
  obtain ⟨rows, hledger, hnew⟩ := hrows
  refine ⟨hcommands.trans h.kept, hbudget, happlied, fun r hr => ?_⟩
  rw [hcommands]
  rw [hledger] at hr
  exact (List.mem_append.mp hr).elim (h.backed r) (hnew r)

/-- The steps that are no delivery and no other request replace one job. -/
theorem Accounted.set (h : Accounted s) {i : Nat} {j k : PaymentJob} {d' : Database}
    (hj : s.intake.jobs[i]? = some j) (hcommand : k.command = j.command) (hbudget : k.attempts ≤ 3)
    (happlied : k.status = .successful → d'.hasLedgerOperation k.command.accountId k.command.id = true)
    (hrows : AddsRows s.database d' (RowOf j.command)) :
    Accounted ⟨{ s.intake with jobs := s.intake.jobs.set i k }, d'⟩ := by
  have hmem := List.mem_of_getElem? hj
  refine h.move (map_set_self hj hcommand) (fun q hq => ?_) (fun q hq hdone => ?_) ?_
  · rcases List.mem_or_eq_of_mem_set hq with hq | rfl
    · exact h.budget q hq
    · exact hbudget
  · rcases List.mem_or_eq_of_mem_set hq with hq | rfl
    · exact hrows.hasLedgerOperation (h.applied q hq hdone)
    · exact happlied hdone
  · obtain ⟨rows, hledger, hnew⟩ := hrows
    exact ⟨rows, hledger, fun r hr => .inr ⟨j.command, List.mem_map_of_mem hmem, hnew r hr⟩⟩

theorem Accounted.deliver (h : Accounted s) (m : PaymentMessage) :
    Accounted { s with intake := s.intake.deliver false m } := by
  rcases s.intake.deliver_false m with heq | heq
  · rw [heq]
    exact ⟨h.kept, h.budget, h.applied, h.backed⟩
  · rw [heq]
    refine ⟨?_, fun j hj => ?_, fun j hj hdone => ?_, fun r hr => ?_⟩
    · rw [List.map_append, List.map_append, h.kept]
      rfl
    · rcases List.mem_append.mp hj with hj | hj
      · exact h.budget j hj
      · rw [List.mem_singleton.mp hj]
        exact Nat.zero_le 3
    · rcases List.mem_append.mp hj with hj | hj
      · exact h.applied j hj hdone
      · rw [List.mem_singleton.mp hj] at hdone
        cases hdone
    · refine (h.backed r hr).imp_right fun ⟨e, he, hrow⟩ => ⟨e, ?_, hrow⟩
      rw [List.map_append]
      exact List.mem_append_left _ he

/-- **What one step preserves.** -/
theorem Accounted.next (h : Accounted s) {a : PipelineStep} (hstep : s.Next mac C texts a s') : Accounted s' := by
  cases a with
  | deliver m =>
    obtain rfl := hstep
    exact h.deliver m
  | pick i =>
    obtain ⟨intake, hpick, rfl⟩ := hstep
    simp only [Intake.next, Option.bind_eq_bind, Option.bind_eq_some_iff] at hpick
    obtain ⟨j, hj, hpick⟩ := hpick
    split at hpick
    · cases hpick
      exact h.set hj rfl (h.budget j (List.mem_of_getElem? hj)) (fun hdone => by cases hdone) (.none rfl)
    · cases hpick
  | finish i now =>
    obtain ⟨j, intake, hj, hsettle, rfl⟩ := hstep
    simp only [Intake.next, hj, Option.bind_eq_bind, Option.bind_some] at hsettle
    split at hsettle
    · cases hsettle
      obtain ⟨hrows, hdone⟩ := handle_rows C texts now s j
      have hbudget := h.budget j (List.mem_of_getElem? hj)
      have hsettled := j.settled (s.handle C texts now j).1
      generalize j.settle (s.handle C texts now j).1 = k at hsettled ⊢
      cases hsettled with
      | successful hok => exact h.set hj rfl hbudget (fun _ => hdone hok) hrows
      | failed e _ _ => exact h.set hj rfl hbudget (fun hdone => by cases hdone) hrows
      | again e _ hlt => exact h.set hj rfl hlt (fun hdone => by cases hdone) hrows
    · cases hsettle
  | lose i now =>
    obtain ⟨j, hj, _, rfl⟩ := hstep
    obtain ⟨⟨rows, hledger, hnew⟩, _⟩ := handle_rows C texts now s j
    refine h.move rfl h.budget (fun q hq hdone => ?_) ⟨rows, hledger, fun r hr => .inr ⟨j.command, ?_, hnew r hr⟩⟩
    · exact AddsRows.hasLedgerOperation ⟨rows, hledger, hnew⟩ (h.applied q hq hdone)
    · exact List.mem_map_of_mem (List.mem_of_getElem? hj)
  | other q =>
    obtain ⟨hq, hintake, hcall⟩ := hstep
    obtain ⟨intake, d'⟩ := s'
    obtain rfl : intake = s.intake := hintake
    obtain ⟨rows, hledger, hnew⟩ := other_rows hq hcall
    exact h.move rfl h.budget (fun j hj hdone => AddsRows.hasLedgerOperation ⟨rows, hledger, hnew⟩ (h.applied j hj hdone))
      ⟨rows, hledger, fun r hr => .inl (hnew r hr)⟩

theorem Accounted.run (h : Accounted s) {as : List PipelineStep} (hrun : s.Run mac C texts as s') : Accounted s' := by
  induction as generalizing s with
  | nil =>
    obtain rfl := hrun
    exact h
  | cons a as ih =>
    obtain ⟨s₁, hstep, hrest⟩ := hrun
    exact ih (h.next hstep) hrest

/-! ### Every delivery, every run -/

theorem next_delivered {a : PipelineStep} (hstep : s.Next mac C texts a s') :
    (s'.intake.acknowledged ++ s'.intake.deadLettered).Perm
      (s.intake.acknowledged ++ s.intake.deadLettered ++ (Pipeline.delivered a).toList) := by
  cases a with
  | deliver m =>
    obtain rfl := hstep
    rcases s.intake.deliver_false m with heq | heq
    · rw [heq, List.append_assoc]
      rfl
    · rw [heq, List.append_assoc, List.append_assoc]
      exact List.perm_append_comm.append_left _
  | pick i =>
    obtain ⟨intake, hpick, rfl⟩ := hstep
    obtain ⟨_, _, _, _, rfl, _⟩ := Intake.next_job (fun m hm => by cases hm) hpick
    simp [Pipeline.delivered]
  | finish i now =>
    obtain ⟨_, intake, _, hsettle, rfl⟩ := hstep
    obtain ⟨_, _, _, _, rfl, _⟩ := Intake.next_job (fun m hm => by cases hm) hsettle
    simp [Pipeline.delivered]
  | lose i now =>
    obtain ⟨_, _, _, rfl⟩ := hstep
    simp [Pipeline.delivered]
  | other q =>
    obtain ⟨_, hintake, _⟩ := hstep
    rw [hintake]
    simp [Pipeline.delivered]

theorem run_delivered {as : List PipelineStep} (hrun : s.Run mac C texts as s') :
    (s'.intake.acknowledged ++ s'.intake.deadLettered).Perm
      (s.intake.acknowledged ++ s.intake.deadLettered ++ as.filterMap Pipeline.delivered) := by
  induction as generalizing s with
  | nil =>
    obtain rfl := hrun
    rw [List.filterMap_nil, List.append_nil]
  | cons a as ih =>
    obtain ⟨s₁, hstep, hrest⟩ := hrun
    have hcons : (a :: as).filterMap Pipeline.delivered =
        (Pipeline.delivered a).toList ++ as.filterMap Pipeline.delivered := by
      rw [List.filterMap_cons]
      cases Pipeline.delivered a <;> rfl
    rw [hcons, ← List.append_assoc]
    exact (ih hrest).trans ((next_delivered hstep).append_right _)

/-- How often the queue has been told of an end of the `i`-th job's runs. -/
def Pipeline.endsAt (s : Pipeline) (i : Nat) : Nat := (s.intake.jobs[i]?).elim 0 PaymentJob.ends

theorem endsAt_set {jobs : List PaymentJob} {k : Nat} {j j' : PaymentJob} (hj : jobs[k]? = some j) (i : Nat) :
    ((jobs.set k j')[i]?).elim 0 PaymentJob.ends = if k = i then j'.ends else (jobs[i]?).elim 0 PaymentJob.ends := by
  obtain ⟨hlt, _⟩ := List.getElem?_eq_some_iff.mp hj
  rw [List.getElem?_set]
  by_cases hi : k = i
  · subst hi
    rw [if_pos rfl, if_pos hlt, if_pos rfl]
    rfl
  · rw [if_neg hi, if_neg hi]

theorem next_endsAt {a : PipelineStep} (hstep : s.Next mac C texts a s') (i : Nat) :
    s'.endsAt i = s.endsAt i + if Pipeline.finishes i a then 1 else 0 := by
  cases a with
  | deliver m =>
    obtain rfl := hstep
    rcases s.intake.deliver_false m with heq | heq
    · simp [Pipeline.endsAt, Pipeline.finishes, heq]
    · simp only [Pipeline.endsAt, Pipeline.finishes, heq, Bool.false_eq_true, if_false, Nat.add_zero]
      rw [List.getElem?_append]
      split
      · rfl
      · rename_i hlt
        rw [List.getElem?_eq_none (Nat.le_of_not_lt hlt)]
        cases i - s.intake.jobs.length <;> rfl
  | pick k =>
    obtain ⟨intake, hpick, rfl⟩ := hstep
    simp only [Intake.next, Option.bind_eq_bind, Option.bind_eq_some_iff] at hpick
    obtain ⟨j, hj, hpick⟩ := hpick
    split at hpick
    · rename_i hlive
      cases hpick
      have hends : ({ j with status := .picked } : PaymentJob).ends = j.ends := by
        rw [PaymentJob.ends_of_live hlive, PaymentJob.ends_of_live (.inr rfl)]
      simp only [Pipeline.endsAt, Pipeline.finishes, endsAt_set hj, Bool.false_eq_true, if_false, Nat.add_zero]
      split
      · rename_i hk
        rw [hends, ← hk, hj]
        rfl
      · rfl
    · cases hpick
  | finish k now =>
    obtain ⟨j, intake, hj, hsettle, rfl⟩ := hstep
    simp only [Intake.next, hj, Option.bind_eq_bind, Option.bind_some] at hsettle
    split at hsettle
    · rename_i hpicked
      cases hsettle
      simp only [Pipeline.endsAt, Pipeline.finishes, endsAt_set hj, PaymentJob.settle_ends hpicked]
      by_cases hk : k = i
      · subst hk
        simp [hj]
      · simp [hk]
    · cases hsettle
  | lose k now =>
    obtain ⟨_, _, _, rfl⟩ := hstep
    simp [Pipeline.endsAt, Pipeline.finishes]
  | other q =>
    obtain ⟨_, hintake, _⟩ := hstep
    simp [Pipeline.endsAt, Pipeline.finishes, hintake]

theorem run_endsAt {as : List PipelineStep} (hrun : s.Run mac C texts as s') (i : Nat) :
    s'.endsAt i = s.endsAt i + as.countP (Pipeline.finishes i) := by
  induction as generalizing s with
  | nil =>
    obtain rfl := hrun
    rw [List.countP_nil, Nat.add_zero]
  | cons a as ih =>
    obtain ⟨s₁, hstep, hrest⟩ := hrun
    rw [ih hrest, next_endsAt hstep, List.countP_cons]
    omega

theorem Accounted.endsAt_le (h : Accounted s) (i : Nat) : s.endsAt i ≤ 4 := by
  rw [Pipeline.endsAt]
  cases hj : s.intake.jobs[i]? with
  | none => exact Nat.zero_le 4
  | some j =>
    have hbudget := h.budget j (List.mem_of_getElem? hj)
    show (if j.Live then j.attempts else j.attempts + 1) ≤ 4
    split <;> omega

/-- The steps of one job's worker. -/
def Pipeline.Works (i : Nat) (now : Timestamp) (a : PipelineStep) : Prop := a = .pick i ∨ a = .finish i now

/-- A worker that picks a live job and lets it end leaves it done, held, or live with
an attempt less. -/
theorem exists_round (mac : VersionToken.Digest) (C : MessageClass CreatePayment) (texts : Texts) {i : Nat} {j : PaymentJob} (hj : s.intake.jobs[i]? = some j) (hlive : j.Live)
    (now : Timestamp) : ∃ s' k, s.Run mac C texts [.pick i, .finish i now] s' ∧ s'.intake.jobs[i]? = some k ∧
      (k.Live → j.attempts < 3 ∧ k.attempts = j.attempts + 1) := by
  let picked : PaymentJob := { j with status := .picked }
  let s₁ : Pipeline := { s with intake := { s.intake with jobs := s.intake.jobs.set i picked } }
  obtain ⟨hlt, _⟩ := List.getElem?_eq_some_iff.mp hj
  have hpicked : s₁.intake.jobs[i]? = some picked := by
    show (s.intake.jobs.set i picked)[i]? = some picked
    rw [List.getElem?_set, if_pos rfl, if_pos hlt]
  have hlt₁ : i < s₁.intake.jobs.length := (List.getElem?_eq_some_iff.mp hpicked).1
  let outcome := (s₁.handle C texts now picked).1
  let s₂ : Pipeline := ⟨{ s₁.intake with jobs := s₁.intake.jobs.set i (picked.settle outcome) },
    (s₁.handle C texts now picked).2⟩
  have hpick : s.Next mac C texts (.pick i) s₁ := ⟨s₁.intake, by simp [Intake.next, hj, hlive, s₁, picked], rfl⟩
  have hfinish : s₁.Next mac C texts (.finish i now) s₂ :=
    ⟨picked, s₂.intake, hpicked, by simp [Intake.next, hpicked, s₂, outcome, picked], rfl⟩
  refine ⟨s₂, picked.settle outcome, ⟨s₁, hpick, s₂, hfinish, rfl⟩, ?_, fun hk => ?_⟩
  · show (s₁.intake.jobs.set i (picked.settle outcome))[i]? = _
    rw [List.getElem?_set, if_pos rfl, if_pos hlt₁]
  · have hsettled := picked.settled outcome
    generalize picked.settle outcome = k at hsettled hk
    cases hsettled with
    | successful _ => simp [PaymentJob.Live] at hk
    | failed _ _ _ => simp [PaymentJob.Live] at hk
    | again _ _ hlt => exact ⟨hlt, rfl⟩

theorem Run.append {s₁ : Pipeline} {as bs : List PipelineStep} (h : s.Run mac C texts as s₁)
    (h' : s₁.Run mac C texts bs s') : s.Run mac C texts (as ++ bs) s' := by
  induction as generalizing s with
  | nil =>
    obtain rfl := h
    exact h'
  | cons a as ih =>
    obtain ⟨s₂, hstep, hrest⟩ := h
    exact ⟨s₂, hstep, ih hrest⟩

/-- A live job ends as soon as its worker has gone on for as many rounds as it has
attempts left. -/
theorem exists_end (mac : VersionToken.Digest) (C : MessageClass CreatePayment) (texts : Texts) {i : Nat} {j : PaymentJob} (hj : s.intake.jobs[i]? = some j) (hlive : j.Live)
    (now : Timestamp) : ∃ as s' k, s.Run mac C texts as s' ∧ (∀ a ∈ as, Pipeline.Works i now a) ∧
      as.length ≤ 2 * (3 - j.attempts + 1) ∧ s'.intake.jobs[i]? = some k ∧ ¬ k.Live := by
  induction hn : 3 - j.attempts generalizing s j with
  | zero =>
    obtain ⟨s', k, hrun, hk, hagain⟩ := exists_round mac C texts hj hlive now
    refine ⟨_, s', k, hrun, ?_, by simp, hk, fun hk => ?_⟩
    · simp [Pipeline.Works]
    · have := (hagain hk).1
      omega
  | succ n ih =>
    obtain ⟨s₁, k, hrun, hk, hagain⟩ := exists_round mac C texts hj hlive now
    by_cases hklive : k.Live
    · obtain ⟨_, hattempts⟩ := hagain hklive
      obtain ⟨as, s', k', hrest, hworks, hlength, hk', hend⟩ := ih hk hklive (by omega)
      refine ⟨_, s', k', Run.append hrun hrest, ?_, ?_, hk', hend⟩
      · intro a ha
        rcases List.mem_append.mp ha with ha | ha
        · simpa [Pipeline.Works] using ha
        · exact hworks a ha
      · simp only [List.length_append, List.length_cons, List.length_nil]
        omega
    · refine ⟨_, s₁, k, hrun, ?_, ?_, hk, hklive⟩
      · simp [Pipeline.Works]
      · simp only [List.length_cons, List.length_nil]
        omega

end

/-- **Every accepted payment is accounted for**: each delivered event has been
acknowledged or dead-lettered; the acknowledged ones have a job each, which is live,
held, or done with its row in the ledger; every row is one of theirs or an opening one;
no job ends more than four runs, and a live one is over after at most eight steps of
its worker. -/
theorem payments_accounted (mac : VersionToken.Digest) (C : MessageClass CreatePayment) (texts : Texts)
    (d : Database) (hd : ∀ r ∈ d.customerAccountLedger.rows, OpeningRow r)
    (as : List PipelineStep) (s : Pipeline) (hrun : (Pipeline.start d).Run mac C texts as s) :
    (s.intake.acknowledged ++ s.intake.deadLettered).Perm (as.filterMap Pipeline.delivered) ∧
    Accounted s ∧
    (∀ j ∈ s.intake.jobs, j.status = .successful → j.command.id ≠ j.command.accountId →
      (∀ e ∈ s.intake.jobs.map (·.command), e.accountId = j.command.accountId → e.id = j.command.id →
        e = j.command) →
      ∃ r ∈ s.database.customerAccountLedger.rows, RowOf j.command r) ∧
    (∀ i, as.countP (Pipeline.finishes i) ≤ 4) ∧
    ∀ (i : Nat) (j : PaymentJob) (now : Timestamp), s.intake.jobs[i]? = some j → j.Live →
      ∃ bs s' k, s.Run mac C texts bs s' ∧ (∀ b ∈ bs, Pipeline.Works i now b) ∧ bs.length ≤ 8 ∧
        s'.intake.jobs[i]? = some k ∧ ¬ k.Live := by
  have hstart : Accounted (Pipeline.start d) :=
    ⟨rfl, fun j hj => (by cases hj), fun j hj => (by cases hj), fun r hr => .inl (hd r hr)⟩
  have haccounted := hstart.run hrun
  refine ⟨run_delivered hrun, haccounted, fun j hj hdone hid hown => haccounted.stored hj hdone hid hown,
    fun i => ?_, fun i j now hj hlive => ?_⟩
  · have hends := run_endsAt hrun i
    have hnone : (Pipeline.start d).endsAt i = 0 := rfl
    have hle := haccounted.endsAt_le i
    omega
  · obtain ⟨bs, s', k, hbs, hworks, hlength, hk, hend⟩ :=
      exists_end mac C texts hj hlive now
    exact ⟨bs, s', k, hbs, hworks, hlength.trans (by omega), hk, hend⟩

/-! ### A run -/

/-- How pydantic writes the command of the deposit. -/
def depositJson : String :=
  "\x7b\"id\":\"00000000-0000-0000-0000-000000000007\"," ++
    "\"account_id\":\"00000000-0000-0000-0000-000000000001\",\"type\":\"deposit\"," ++
    "\"signed_amount\":\"10.00\",\"occurred_at\":\"1970-01-01T00:00:00Z\"\x7d"

def depositClass : MessageClass CreatePayment where
  dump e := if e = openingDeposit.command then depositJson else ""
  validate payload :=
    if payload = depositJson.toUTF8 then .ok openingDeposit.command else .error "Invalid JSON"
  reads a b h := by
    by_cases ha : a = openingDeposit.command
    · rw [if_pos ha, if_pos rfl] at h
      rw [ha]
      exact (Except.ok.inj h).symm
    · have hempty : ¬ "".toUTF8 = depositJson.toUTF8 := by decide
      rw [if_neg ha, if_neg hempty] at h
      cases h

/-- The deposit is delivered twice; the first of its workers is lost after the commit. -/
def lostRun : List PipelineStep :=
  [.other (.create .sample), .deliver openingDeposit, .deliver openingDeposit, .pick 0, .lose 0 5, .pick 0,
    .finish 0 9]

/-- The customer's account 1 with its opening row. -/
def openedAccount : Database :=
  { Database.empty openingCustomer with
    customerAccount := .single CustomerAccountCreate.sample.account
    customerAccountLedger := .single CustomerAccountCreate.sample.openingRow }

theorem lost_run_accounted : ∃ s : Pipeline, Accounted s ∧
    (Pipeline.start (.empty openingCustomer)).Run (fun _ => 0) depositClass ⟨fun _ => "", fun _ => ""⟩ lostRun s ∧
    (s.intake.acknowledged ++ s.intake.deadLettered).length = 2 ∧
    ∃ r ∈ s.database.customerAccountLedger.rows, RowOf openingDeposit.command r := by
  have hcreated : createCustomerAccount (.empty openingCustomer) .sample = some openedAccount := rfl
  obtain ⟨s, hrun, hjobs⟩ : ∃ s, (Pipeline.start (.empty openingCustomer)).Run (fun _ => 0) depositClass
      ⟨fun _ => "", fun _ => ""⟩ lostRun s ∧ s.intake.jobs = [⟨openingDeposit.command, 0, .successful⟩] :=
    ⟨_, ⟨⟨.start, openedAccount⟩, ⟨rfl, rfl, hcreated⟩, _, rfl, _, rfl, _, ⟨_, rfl, rfl⟩, _, ⟨_, rfl, rfl, rfl⟩,
      _, ⟨_, rfl, rfl⟩, _, ⟨_, _, rfl, rfl, rfl⟩, rfl⟩, by decide +kernel⟩
  obtain ⟨hdelivered, haccounted, hstored, _⟩ := payments_accounted _ _ _ (.empty openingCustomer)
    (fun r hr => by cases hr) lostRun s hrun
  refine ⟨s, haccounted, hrun, hdelivered.length_eq, ?_⟩
  refine hstored _ (hjobs ▸ List.mem_singleton.mpr rfl) rfl (by decide) fun e he _ _ => ?_
  rw [hjobs] at he
  exact List.mem_singleton.mp he

end Statement.System
