import Statement.System.Redelivery

/-! A payment that the handler accepts.

A normal return is meant to say that the payment is in the ledger: it is stored
now, or a row of its operation was there. But the opening row carries the
account's own id as its operation, so a payment that comes under that id is taken
for a duplicate and is stored nowhere. -/
namespace Statement.System
open Domain Foundation Account Payment

/-- The ledger of the command's account has the row of the command. -/
def Stored (d : Database) (e : CreatePayment) : Prop :=
  ∃ r ∈ d.ledgerOf e.accountId,
    r.operationId = e.id ∧ r.amount.cents = e.signedAmount ∧ r.operationType = e.type

/-- The account that the command names takes payments. -/
def Accepting (d : Database) (a : UUID) : Prop :=
  ∃ account, d.findById a = some account ∧ account.status = .active

/-- The opening row of an account. -/
theorem Sound.opening_row {E : Set PaymentMessage} {d : Database} (hs : Sound E d) {a : UUID}
    {account : CustomerAccount} (ha : d.findById a = some account) :
    ∃ r ∈ d.ledgerOf a, Opening a r := by
  have hledger := hs.ledger a account ha
  obtain ⟨r, hr, hno, _⟩ := hledger.journal.first
  have hmem : r ∈ d.ledgerOf a := List.mem_of_mem_head? hr
  exact ⟨r, hmem, hledger.opening r hmem hno⟩

/-- A payment of at most the column's range has the amount it is signed with. -/
theorem signedAmount_of_signed {m : PaymentMessage} {n : Numeric} (h : n.cents = m.signed) :
    m.command.signedAmount = n.cents := by
  have hn := n.inRange
  cases m with
  | deposited event => exact h.symm
  | withdrawn event =>
    have hsigned : event.amount * (-1) = n.cents := by
      rw [h]
      simp [PaymentMessage.signed]
    calc Decimal.mul event.amount (-1) = event.amount * (-1) :=
          roundSignificant_of_lt (by decide) (by rw [hsigned]; exact hn.trans (by decide))
      _ = n.cents := hsigned

section
variable {E : Set PaymentMessage} {d : Database} {m : PaymentMessage}

/-- A row of the operation is a payment's, unless it is the opening row. -/
theorem exists_stored (hs : Sound E d) (hne : m.event.id ≠ m.event.accountId)
    (h : AppliedOnce d m.command) : ∃ n ∈ E, n.event.id = m.event.id ∧
      n.event.accountId = m.event.accountId ∧ Stored d n.command := by
  obtain ⟨r, hr, hop⟩ := h
  rw [PaymentMessage.command_accountId] at hr
  rw [PaymentMessage.command_id] at hop
  have hledger := hs.ledger_of_mem hr
  by_cases hno : r.no = 1
  · exact absurd (hop.symm.trans (hledger.opening r hr hno).2.2.2) hne
  · obtain ⟨n, hn, hid, haccount, htype, hamount⟩ := hledger.paid r hr hno
    have hsame : n.event.accountId = m.event.accountId := haccount.symm.trans (Database.mem_ledgerOf.mp hr).2
    refine ⟨n, hn, hid.symm.trans hop, hsame, r, ?_, ?_, (signedAmount_of_signed hamount).symm, ?_⟩
    · rwa [PaymentMessage.command_accountId, hsame]
    · rw [PaymentMessage.command_id, hid]
    · rw [htype, PaymentMessage.command_type]

theorem stored_of_applied (hs : Sound E d) (hfresh : ∀ n ∈ E, n.event.id = m.event.id → n = m)
    (hne : m.event.id ≠ m.event.accountId) (h : AppliedOnce d m.command) : Stored d m.command := by
  obtain ⟨n, hn, hid, _, hstored⟩ := exists_stored hs hne h
  exact hfresh n hn hid ▸ hstored

/-- The row that a job inserts is its command's. -/
theorem stored_insert {e : CreatePayment} {previous row : CustomerAccountLedger} {now : Timestamp}
    {t : Table CustomerAccountLedger CustomerAccountLedger.clash}
    (hprev : previous ∈ d.ledgerOf e.accountId) (hrow : (Job.entry e previous now).store = some row)
    (ht : d.customerAccountLedger.insert row = some t) :
    Stored { d with customerAccountLedger := t } e := by
  obtain ⟨haccount, _, hamount, _, htype, hop⟩ := Job.entry_store hrow
  have hledger : ({ d with customerAccountLedger := t } : Database).ledgerOf e.accountId = _ :=
    Database.ledgerOf_insert ht e.accountId
  rw [if_pos (haccount.trans (Database.mem_ledgerOf.mp hprev).2)] at hledger
  exact ⟨row, by simp [hledger], hop, hamount, htype⟩

/-- Under its account's id a payment meets the opening row. -/
theorem applied_of_eq (hs : Sound E d) (ha : Accepting d m.event.accountId)
    (he : m.event.id = m.event.accountId) : AppliedOnce d m.command := by
  obtain ⟨account, ha, _⟩ := ha
  obtain ⟨r, hr, _, _, _, hopening⟩ := hs.opening_row ha
  exact ⟨r, by rwa [PaymentMessage.command_accountId],
    by rw [PaymentMessage.command_id, hopening, he]⟩

/-- The opening row has the operation, so no row of the payment has. -/
theorem not_stored_of_eq (hs : Sound E d) (he : m.event.id = m.event.accountId) :
    ¬ Stored d m.command := by
  rintro ⟨q, hq, hop, _, htype⟩
  obtain ⟨account, ha⟩ := hs.findById_of_applied ⟨q, hq, hop⟩
  rw [PaymentMessage.command_accountId] at hq ha
  rw [PaymentMessage.command_id] at hop
  rw [PaymentMessage.command_type] at htype
  obtain ⟨r, hr, _, _, hcreate, hopening⟩ := hs.opening_row ha
  have hdistinct := operations_distinct d m.event.accountId
  have : Std.Symm fun q r : CustomerAccountLedger => q.operationId ≠ r.operationId :=
    ⟨fun _ _ => Ne.symm⟩
  by_cases hqr : q = r
  · rw [hqr, hcreate] at htype
    cases m <;> cases htype
  · exact hdistinct.forall hq hr hqr (hop.trans (he.trans hopening.symm))

end

/-- **A payment that is accepted is stored, unless it comes under its account's id**:
by the handler alone, and among all the other parties. -/
theorem accepted_stored_iff {T : Type} [DecidableEq T] (mac : VersionToken.Digest)
    (E : Set PaymentMessage) (w : Service T) (h : Reachable mac E w) (m : PaymentMessage)
    (hfresh : ∀ n ∈ E, n.event.id = m.event.id → n = m) :
    (∀ now, (∀ d', Job.onCreatePayment now w.committed m.command = .ok d' → Stored d' m.command) ↔
      ¬ (m.event.id = m.event.accountId ∧ Accepting w.committed m.event.accountId)) ∧
    ∀ t phase w', w.running t = some (.payment ⟨m.command, phase⟩) →
      w.next (service mac) (.commit t) = some w' →
      (Stored w'.committed m.command ↔ m.event.id ≠ m.event.accountId) := by
  have hs := h.sound
  refine ⟨fun now => ⟨fun hstored ⟨he, haccepting⟩ => ?_, fun hnot d' hd' => ?_⟩, ?_⟩
  · have hseen := (applied_of_eq hs haccepting he).seen
    obtain ⟨account, hfound, hactive⟩ := haccepting
    refine not_stored_of_eq hs he (hstored w.committed ?_)
    rw [PaymentMessage.command_accountId, PaymentMessage.command_id] at hseen
    simp [Job.onCreatePayment, hfound, hactive, hseen]
  · obtain ⟨haccepting, ⟨hseen, rfl⟩ | ⟨previous, row, t, _, hlast, _, hrow, ht, rfl⟩⟩ :=
      Job.onCreatePayment_ok hd'
    · rw [PaymentMessage.command_accountId] at haccepting
      obtain ⟨r, hr, hop⟩ := List.any_eq_true.mp hseen
      exact stored_of_applied hs hfresh (fun he => hnot ⟨he, haccepting⟩) ⟨r, hr, of_decide_eq_true hop⟩
    · obtain ⟨account, ha, _⟩ := haccepting
      rw [hs.findLast_eq ha] at hlast
      exact stored_insert (List.mem_of_getLast? hlast) hrow ht
  · intro t phase w' hl hw
    have hs' : Sound E w'.committed :=
      (h.step (.commit t) (fun _ _ hb => by cases hb) hw).sound
    refine ⟨fun hstored he => not_stored_of_eq hs' he hstored, fun hne => ?_⟩
    obtain ⟨l, d', hl', hd', rfl⟩ := World.next_commit hw
    obtain rfl := Option.some.inj (hl.symm.trans hl')
    have hphase := (h.valid.holds t _ hl).phase
    rcases Job.commit_some hd' with ⟨hdup, rfl⟩ | ⟨row, t', hflushed, ht', rfl⟩
    · obtain rfl : phase = .duplicate := hdup
      obtain ⟨r, hr, hop⟩ := List.any_eq_true.mp hphase
      exact stored_of_applied hs hfresh hne ⟨r, hr, of_decide_eq_true hop⟩
    · obtain rfl : phase = .flushed row := hflushed
      obtain ⟨_, previous, now, ⟨_, hlast, _⟩, hrow⟩ := hphase
      exact stored_insert (List.mem_of_getLast? hlast) hrow ht'

/-! ### Two payments -/

/-- A deposit whose id is its account's. -/
def swallowedDeposit : PaymentMessage := .deposited { openingDeposit.event with id := 1 }

/-- The account is there, and no payment yet. -/
theorem opened_enqueued {E : Set PaymentMessage} (t : Nat) (e : CreatePayment)
    (ht : Action.begin t (Request.payment e) ∈ openingRun.take 4) : ∃ m ∈ E, m.command = e := by
  simp [openingRun] at ht

theorem swallowed_not_stored : ∃ w : Service Nat, Reachable (fun _ => 0) {swallowedDeposit} w ∧
    (∀ n ∈ ({swallowedDeposit} : Set PaymentMessage),
      n.event.id = swallowedDeposit.event.id → n = swallowedDeposit) ∧
    Job.onCreatePayment 9 w.committed swallowedDeposit.command = .ok w.committed ∧
    ¬ Stored w.committed swallowedDeposit.command := by
  have hrun : ((initial Nat openingCustomer).run (service fun _ => 0) (openingRun.take 4)).map (fun w =>
      ((w.committed.findById 1).map (·.status), w.committed.hasLedgerOperation 1 1,
        (w.committed.ledgerOf 1).map (·.operationType))) = some (some .active, true, [.create]) := by decide
  obtain ⟨w, hw, hfields⟩ := Option.map_eq_some_iff.mp hrun
  obtain ⟨hstatus, hrest⟩ := Prod.mk.inj hfields
  obtain ⟨hseen, htypes⟩ := Prod.mk.inj hrest
  obtain ⟨account, hfound, hactive⟩ := Option.map_eq_some_iff.mp hstatus
  refine ⟨w, ⟨openingCustomer, _, opened_enqueued, hw⟩, fun n hn _ => hn,
    Job.onCreatePayment_seen hfound hactive hseen, ?_⟩
  rintro ⟨r, hr, _, _, htype⟩
  have hcreate : r.operationType ∈ [LedgerOperationType.create] := htypes ▸ List.mem_map_of_mem hr
  rw [htype] at hcreate
  cases List.mem_singleton.mp hcreate

/-- The event of a job. -/
def Party.event : Party → Option CreatePayment
  | .payment j => some j.event
  | _ => none

theorem Party.event_some {p : Party} {e : CreatePayment} (h : p.event = some e) :
    ∃ phase, p = .payment ⟨e, phase⟩ := by
  cases p with
  | payment j =>
    cases h
    exact ⟨j.phase, rfl⟩
  | create c => cases h
  | change c => cases h
  | verify v => cases h

/-- A deposit under an id of its own, about to be committed beside a second job. -/
theorem openingDeposit_stored : ∃ w w' : Service Nat, Reachable (fun _ => 0) {openingDeposit} w ∧
    (∀ d', Job.onCreatePayment 9 w.committed openingDeposit.command = .ok d' →
      Stored d' openingDeposit.command) ∧
    w.next (service fun _ => 0) (.commit 2) = some w' ∧ Stored w'.committed openingDeposit.command := by
  have hrun : ((initial Nat openingCustomer).run (service fun _ => 0) (openingRun.take 10)).map (fun w =>
      ((w.running 2).bind Party.event, (w.next (service fun _ => 0) (.commit 2)).isSome)) =
      some (some openingDeposit.command, true) := by decide
  obtain ⟨w, hw, hfields⟩ := Option.map_eq_some_iff.mp hrun
  obtain ⟨hrunning, hcommits⟩ := Prod.mk.inj hfields
  obtain ⟨w', hw'⟩ := Option.isSome_iff_exists.mp hcommits
  have hreach : Reachable (fun _ => 0) {openingDeposit} w :=
    ⟨openingCustomer, _, fun t e ht => openingRun_enqueued (Set.mem_singleton _) t e
      (List.mem_of_mem_take ht), hw⟩
  obtain ⟨halone, hamong⟩ := accepted_stored_iff _ _ w hreach openingDeposit fun n hn _ => hn
  obtain ⟨p, hp, hevent⟩ := Option.bind_eq_some_iff.mp hrunning
  obtain ⟨phase, rfl⟩ := Party.event_some hevent
  exact ⟨w, w', hreach, (halone 9).mpr fun h => absurd h.1 (by decide), hw',
    (hamong 2 phase w' hp hw').mpr (by decide)⟩

end Statement.System
