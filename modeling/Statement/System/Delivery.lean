import Statement.System.LedgerIntegrity

/-! Payments end to end: the broker, the job queue and the service.

The broker delivers an event any number of times and in any order; the subscriber
enqueues its command, and the queue refuses a second live job with the same key.
A worker may run a live job any number of times, two workers at once, and a job
may leave the queue at any time. None of this is what makes a payment happen
once: the projection of a deployment's run is a run of the service, where the
operation is looked up under the lock. -/
namespace Statement.System
open Domain Foundation Account Payment

/-- The live jobs, and the service they run on. -/
structure Deployment (T : Type) where
  queue : List CreatePayment
  world : Service T

inductive DeploymentStep (T : Type) where
  /-- The broker delivers an event and the subscriber enqueues its command. -/
  | deliver (m : PaymentMessage)
  /-- A worker starts a run of a live job. -/
  | pick (t : T) (c : CreatePayment)
  /-- A job is finished, held or dropped. -/
  | remove (c : CreatePayment)
  /-- Anything that happens in the database, but for the start of a job. -/
  | act (a : Step T)

/-- Jobs start in `pick` alone. -/
def startsJob {T : Type} : Step T → Bool
  | .begin _ (.payment _) => true
  | _ => false

namespace Deployment
variable {T : Type} [DecidableEq T] (mac : VersionToken.Digest)

def next (s : Deployment T) : DeploymentStep T → Option (Deployment T)
  | .deliver m =>
    if ∃ c ∈ s.queue, c.dedupeKey = m.command.dedupeKey then some s
    else some { s with queue := s.queue ++ [m.command] }
  | .pick t c =>
    if c ∈ s.queue then
      (s.world.next (service mac) (.begin t (.payment c))).map fun w => { s with world := w }
    else none
  | .remove c => some { s with queue := s.queue.erase c }
  | .act a =>
    if startsJob a then none
    else (s.world.next (service mac) a).map fun w => { s with world := w }

def run (s : Deployment T) : List (DeploymentStep T) → Option (Deployment T)
  | [] => some s
  | e :: rest => (s.next mac e).bind fun s' => run s' rest

/-- What a deployment reaches from an empty ledger and an empty queue, when the
broker delivers events of `E` only. -/
def Reachable (E : Set PaymentMessage) (s : Deployment T) : Prop :=
  ∃ customer es, (∀ m, DeploymentStep.deliver m ∈ es → m ∈ E) ∧
    (⟨[], initial T customer⟩ : Deployment T).run mac es = some s

/-- Live jobs are commands of delivered events, and the service runs no others. -/
structure Valid (E : Set PaymentMessage) (s : Deployment T) : Prop where
  queue : ∀ c ∈ s.queue, ∃ m ∈ E, m.command = c
  world : System.Reachable mac E s.world

variable {mac} {E : Set PaymentMessage} {s s' : Deployment T}

theorem Valid.next (h : Valid mac E s) {e : DeploymentStep T}
    (he : ∀ m, e = .deliver m → m ∈ E) (hs : s.next mac e = some s') : Valid mac E s' := by
  cases e with
  | deliver m =>
    simp only [Deployment.next] at hs
    split at hs
    · cases hs
      exact h
    · cases hs
      refine ⟨fun c hc => ?_, h.world⟩
      rcases List.mem_append.mp hc with hc | hc
      · exact h.queue c hc
      · exact ⟨m, he m rfl, (List.mem_singleton.mp hc).symm⟩
  | pick t c =>
    simp only [Deployment.next] at hs
    split at hs
    · rename_i hc
      obtain ⟨w, hw, rfl⟩ := Option.map_eq_some_iff.mp hs
      refine ⟨h.queue, h.world.step _ (fun t' c' hb => ?_) hw⟩
      cases hb
      exact h.queue c hc
    · cases hs
  | remove c =>
    cases hs
    exact ⟨fun x hx => h.queue x (List.mem_of_mem_erase hx), h.world⟩
  | act a =>
    simp only [Deployment.next] at hs
    split at hs
    · cases hs
    · rename_i hstarts
      obtain ⟨w, hw, rfl⟩ := Option.map_eq_some_iff.mp hs
      refine ⟨h.queue, h.world.step a (fun t' c' hb => ?_) hw⟩
      rw [hb] at hstarts
      exact absurd rfl hstarts

theorem Valid.run (h : Valid mac E s) {es : List (DeploymentStep T)}
    (hes : ∀ m, DeploymentStep.deliver m ∈ es → m ∈ E) (hs : s.run mac es = some s') :
    Valid mac E s' := by
  induction es generalizing s with
  | nil =>
    cases hs
    exact h
  | cons e rest ih =>
    obtain ⟨s₁, h₁, hrest⟩ := Option.bind_eq_some_iff.mp hs
    refine ih (h.next (fun m hm => hes m (hm ▸ List.mem_cons_self)) h₁) (fun m hm => ?_) hrest
    exact hes m (List.mem_cons_of_mem e hm)

theorem Reachable.valid (h : Reachable mac E s) : Valid mac E s := by
  obtain ⟨customer, es, hes, hrun⟩ := h
  refine Valid.run ⟨fun _ hc => absurd hc List.not_mem_nil, customer, [], fun _ _ ht => (nomatch ht), rfl⟩ hes hrun

end Deployment

/-! ### The rows of payments -/

/-- The payment has a row on the account. -/
def paidOn (d : Database) (a : UUID) (m : PaymentMessage) : Bool :=
  (d.ledgerOf a).any fun r => r.operationType ≠ .create ∧ r.operationId = m.event.id

section
variable {E : List PaymentMessage} {d : Database}

/-- A row that is no opening row is a payment's. -/
theorem Sound.paid_of_ne_create {E : Set PaymentMessage} (hs : Sound E d) {a : UUID}
    {r : CustomerAccountLedger} (hr : r ∈ d.ledgerOf a) (hne : r.operationType ≠ .create) : Paid E r :=
  (hs.ledger_of_mem hr).paid r hr fun hn => hne ((hs.ledger_of_mem hr).opening r hr hn).2.2.1

theorem Paid.ne_create {E : Set PaymentMessage} {r : CustomerAccountLedger} (h : Paid E r) :
    r.operationType ≠ .create := by
  rcases h.amount with ⟨ht, _⟩ | ⟨ht, _⟩ <;> rw [ht] <;> decide

/-- Events are known by their ids. -/
theorem event_unique (hE : E.Pairwise fun m n => m.event.id ≠ n.event.id) {m n : PaymentMessage}
    (hm : m ∈ E) (hn : n ∈ E) (h : m.event.id = n.event.id) : m = n := by
  have : Std.Symm fun m n : PaymentMessage => m.event.id ≠ n.event.id := ⟨fun _ _ => Ne.symm⟩
  by_contra hne
  exact hE.forall hm hn hne h

/-- One operation id, one row. -/
theorem payment_row_unique (hs : Sound {m | m ∈ E} d)
    (hE : E.Pairwise fun m n => m.event.id ≠ n.event.id) {q r : CustomerAccountLedger}
    (hq : q ∈ d.customerAccountLedger.rows) (hr : r ∈ d.customerAccountLedger.rows)
    (hqc : q.operationType ≠ .create) (hrc : r.operationType ≠ .create)
    (h : q.operationId = r.operationId) : q = r := by
  have hmem : ∀ x ∈ d.customerAccountLedger.rows, x ∈ d.ledgerOf x.accountId := fun x hx =>
    Database.mem_ledgerOf.mpr ⟨hx, rfl⟩
  obtain ⟨m, hm, hmid, hmaccount, _⟩ := hs.paid_of_ne_create (hmem q hq) hqc
  obtain ⟨n, hn, hnid, hnaccount, _⟩ := hs.paid_of_ne_create (hmem r hr) hrc
  obtain rfl := event_unique hE hm hn (by rw [← hmid, ← hnid, h])
  have hclash : q.clash r := ⟨hmaccount.trans hnaccount.symm, .inr h⟩
  have hsymm : ∀ a b : CustomerAccountLedger, a.clash b → b.clash a := fun a b hab =>
    ⟨hab.1.symm, hab.2.imp Eq.symm Eq.symm⟩
  exact Table.eq_of_clash hsymm hq hr hclash

theorem sum_filter_eq {α : Type} {f : α → Int} {p : α → Bool} {l : List α}
    (h : ∀ a ∈ l, p a = false → f a = 0) : ((l.filter p).map f).sum = (l.map f).sum := by
  induction l with
  | nil => rfl
  | cons a l ih =>
    have ih := ih fun b hb => h b (List.mem_cons_of_mem a hb)
    cases hp : p a with
    | true => rw [List.filter_cons, if_pos hp, List.map_cons, List.map_cons, List.sum_cons, ih, List.sum_cons]
    | false =>
      rw [List.filter_cons, if_neg (by simp [hp]), ih, List.map_cons, List.sum_cons,
        h a List.mem_cons_self hp, zero_add]

/-- The rows of payments on an account are the payments that have a row there. -/
theorem payments_perm (hs : Sound {m | m ∈ E} d) (hE : E.Pairwise fun m n => m.event.id ≠ n.event.id)
    (a : UUID) :
    (((d.ledgerOf a).filter (·.operationType ≠ .create)).map fun r => (r.operationId, r.amount.cents)).Perm
      ((E.filter (paidOn d a)).map fun m => (m.event.id, m.signed)) := by
  have hrows : (((d.ledgerOf a).filter (·.operationType ≠ .create)).map fun r =>
      (r.operationId, r.amount.cents)).Nodup :=
    List.pairwise_map.mpr (((operations_distinct d a).filter _).imp fun hne he => hne (Prod.mk.inj he).1)
  have hevents : ((E.filter (paidOn d a)).map fun m => (m.event.id, m.signed)).Nodup :=
    List.pairwise_map.mpr ((hE.filter _).imp fun hne he => hne (Prod.mk.inj he).1)
  refine (List.perm_ext_iff_of_nodup hrows hevents).mpr fun x => ?_
  constructor
  · intro hx
    obtain ⟨r, hr, rfl⟩ := List.mem_map.mp hx
    obtain ⟨hr, hne⟩ := List.mem_filter.mp hr
    have hne : r.operationType ≠ .create := by simpa using hne
    obtain ⟨m, hm, hid, _, _, hamount⟩ := hs.paid_of_ne_create hr hne
    refine List.mem_map.mpr ⟨m, List.mem_filter.mpr ⟨hm, ?_⟩, by rw [hid, hamount]⟩
    exact List.any_eq_true.mpr ⟨r, hr, decide_eq_true ⟨hne, hid⟩⟩
  · intro hx
    obtain ⟨m, hm, rfl⟩ := List.mem_map.mp hx
    obtain ⟨hm, hpaid⟩ := List.mem_filter.mp hm
    obtain ⟨r, hr, hrm⟩ := List.any_eq_true.mp hpaid
    obtain ⟨hne, hid⟩ := of_decide_eq_true hrm
    obtain ⟨n, hn, hnid, _, _, hamount⟩ := hs.paid_of_ne_create hr hne
    obtain rfl := event_unique hE hm hn (by rw [← hid, ← hnid])
    exact List.mem_map.mpr ⟨r, List.mem_filter.mpr ⟨hr, by simpa using hne⟩, by rw [hid, hamount]⟩

theorem balance_eq_payments (hs : Sound {m | m ∈ E} d)
    (hE : E.Pairwise fun m n => m.event.id ≠ n.event.id) {a : UUID} {row : CustomerAccount}
    (ha : d.findById a = some row) : ∃ last, d.findLastLedgerEntry a = some last ∧
      last.balance.cents = ((E.filter (paidOn d a)).map (·.signed)).sum := by
  have hledger := hs.ledger a row ha
  obtain ⟨init, last, hrows⟩ := (List.eq_nil_or_concat _).resolve_left hledger.journal.ne_nil
  have hlast : (d.ledgerOf a).getLast? = some last := by
    rw [hrows, List.concat_eq_append, List.getLast?_concat]
  refine ⟨last, (hs.findLast_eq ha).trans hlast, ?_⟩
  have hzero : ∀ r ∈ d.ledgerOf a, decide (r.operationType ≠ .create) = false → r.amount.cents = 0 := by
    intro r hr hc
    by_cases hn : r.no = 1
    · rw [(hledger.opening r hr hn).1]
      rfl
    · exact absurd (of_decide_eq_false hc) (not_not.mpr (hledger.paid r hr hn).ne_create)
  have hperm := ((payments_perm hs hE a).map Prod.snd).sum_eq
  rw [List.map_map, List.map_map] at hperm
  calc last.balance.cents = ((d.ledgerOf a).map (·.amount.cents)).sum := hledger.journal.last_balance hlast
    _ = (((d.ledgerOf a).filter (·.operationType ≠ .create)).map (·.amount.cents)).sum :=
        (sum_filter_eq hzero).symm
    _ = ((E.filter (paidOn d a)).map (·.signed)).sum := hperm

end

/-- Of a job's actions, only the commit of a row changes a table. -/
theorem job_changes {T : Type} [DecidableEq T] {mac : VersionToken.Digest} {w w' : Service T}
    {a : Step T} {j : Job} (hj : w.running a.actor = some (.payment j))
    (h : w.next (service mac) a = some w') :
    w'.committed = w.committed ∨ (a = .commit a.actor ∧ ∃ row, j.phase = .flushed row) := by
  rcases World.next_committed h with hsame | ⟨l, ha, hl, hc⟩
  · exact .inl hsame
  · rw [hj] at hl
    cases hl
    rcases Job.commit_some hc with ⟨_, hsame⟩ | ⟨row, _, hflushed, _⟩
    · exact .inl hsame
    · exact .inr ⟨ha, row, hflushed⟩

/-- **Payments take effect exactly once.** -/
theorem payments_exactly_once {T : Type} [DecidableEq T] (mac : VersionToken.Digest)
    (E : List PaymentMessage) (hE : E.Pairwise fun m n => m.event.id ≠ n.event.id) (s : Deployment T)
    (h : s.Reachable mac {m | m ∈ E}) :
    (∀ q ∈ s.world.committed.customerAccountLedger.rows,
      ∀ r ∈ s.world.committed.customerAccountLedger.rows, q.operationType ≠ .create →
        r.operationType ≠ .create → q.operationId = r.operationId → q = r) ∧
    (∀ r ∈ s.world.committed.customerAccountLedger.rows, r.operationType ≠ .create →
      ∃ m ∈ E, r.operationId = m.event.id ∧ r.accountId = m.event.accountId ∧
        r.operationType = m.type ∧ r.amount.cents = m.signed) ∧
    (∀ e s' a j, e = .act a → s.world.running a.actor = some (.payment j) → s.next mac e = some s' →
      s'.world.committed = s.world.committed ∨ (a = .commit a.actor ∧ ∃ row, j.phase = .flushed row)) ∧
    ∀ account ∈ s.world.committed.customerAccount.rows, ∃ last,
      s.world.committed.findLastLedgerEntry account.id = some last ∧
      last.balance.cents =
        ((E.filter (paidOn s.world.committed account.id)).map (·.signed)).sum := by
  have hs := h.valid.world.sound
  refine ⟨fun q hq r hr hqc hrc hid => payment_row_unique hs hE hq hr hqc hrc hid,
    fun r hr hne => ?_, ?_, fun account ha => ?_⟩
  · exact hs.paid_of_ne_create (Database.mem_ledgerOf.mpr ⟨hr, rfl⟩) hne
  · rintro _ s' a j rfl hj hnext
    simp only [Deployment.next] at hnext
    split at hnext
    · cases hnext
    · obtain ⟨w, hw, rfl⟩ := Option.map_eq_some_iff.mp hnext
      exact job_changes hj hw
  · exact balance_eq_payments hs hE (Database.findById_of_mem ha)

/-! ### A run -/

/-- The deposit is delivered twice, run by two workers of which one crashes, and
delivered and run again after it has taken effect. -/
def redeliveredRun : List (DeploymentStep Nat) :=
  let input : Input := ⟨5, []⟩
  [.act (.begin 0 (.create .sample)), .act (.statement 0 input),
    .act (.statement 0 input), .act (.commit 0), .deliver openingDeposit, .deliver openingDeposit,
    .pick 1 openingDeposit.command, .act (.statement 1 input), .act (.rollback 1),
    .pick 2 openingDeposit.command, .act (.statement 2 input), .act (.statement 2 input),
    .act (.statement 2 input), .act (.statement 2 input), .act (.commit 2),
    .remove openingDeposit.command, .deliver openingDeposit, .pick 3 openingDeposit.command,
    .act (.statement 3 input), .act (.statement 3 input), .act (.commit 3)]

theorem redelivered_run_once : ∃ s : Deployment Nat,
    (s.world.committed.ledgerOf 1).map (fun r => (r.no, r.amount.cents)) = [(1, 0), (2, 1000)] ∧
    ∃ last, s.world.committed.findLastLedgerEntry 1 = some last ∧ last.balance.cents =
      (([openingDeposit].filter (paidOn s.world.committed 1)).map (·.signed)).sum := by
  have hrun : ((⟨[], initial Nat openingCustomer⟩ : Deployment Nat).run (fun _ => 0) redeliveredRun).map
      (fun s => (s.world.committed.customerAccount.rows.map (·.id),
        (s.world.committed.ledgerOf 1).map fun r => (r.no, r.amount.cents))) =
      some ([1], [(1, 0), (2, 1000)]) := by decide
  obtain ⟨s, hs, hrows⟩ := Option.map_eq_some_iff.mp hrun
  obtain ⟨hids, hledger⟩ := Prod.mk.inj hrows
  have hreach : s.Reachable (fun _ => 0) {m | m ∈ [openingDeposit]} := by
    refine ⟨openingCustomer, redeliveredRun, fun m hm => ?_, hs⟩
    simpa [redeliveredRun] using hm
  obtain ⟨account, ha, hid⟩ : ∃ account ∈ s.world.committed.customerAccount.rows, account.id = 1 :=
    List.mem_map.mp (hids ▸ List.mem_singleton.mpr rfl)
  have hlast := (payments_exactly_once _ [openingDeposit] (List.pairwise_singleton _ _) s hreach).2.2.2
    account ha
  exact ⟨s, hledger, hid ▸ hlast⟩

end Statement.System
