import Statement.System.Acceptance

/-! The arithmetic of a payment, from the event to the columns.

An amount has any number of digits, the two decimal operations on its way keep
28 of them, and a column takes 16. What was rounded is too large for its column,
so a payment that is stored was computed exactly, and its balance is the one that
was compared with zero. What is stored already is not computed again. -/
namespace Statement.System
open Domain Foundation Account Payment

/-- The payment has moved its exact amount from `d` to `d'`: its account has one row
more, which adds the amount to the last balance, and no other ledger has changed. -/
def MovedExactly (d d' : Database) (m : PaymentMessage) : Prop :=
  ∃ previous row, d.findLastLedgerEntry m.event.accountId = some previous ∧
    row.operationId = m.event.id ∧ row.amount.cents = m.signed ∧
    row.balance.cents = previous.balance.cents + m.signed ∧ 0 ≤ row.balance.cents ∧
    ∀ a, d'.ledgerOf a = d.ledgerOf a ++ if m.event.accountId = a then [row] else []

section
variable {d : Database} {m : PaymentMessage} {previous row : CustomerAccountLedger} {now : Timestamp}
  {t : Table CustomerAccountLedger CustomerAccountLedger.clash}

/-- The row that follows the last entry, with a balance that passed the comparison. -/
theorem movedExactly_of_insert (hlast : d.findLastLedgerEntry m.event.accountId = some previous)
    (hprev : previous ∈ d.ledgerOf m.event.accountId)
    (hnonneg : 0 ≤ Decimal.add previous.balance.cents m.command.signedAmount)
    (hrow : (Job.entry m.command previous now).store = some row)
    (ht : d.customerAccountLedger.insert row = some t) :
    MovedExactly d { d with customerAccountLedger := t } m := by
  obtain ⟨haccount, _, hamount, hbalance, _, hop⟩ := Job.entry_store hrow
  have hsigned : m.command.signedAmount = m.signed :=
    PaymentMessage.command_exact (Numeric.store_some.mpr hamount)
  have hexact : Decimal.add previous.balance.cents m.command.signedAmount =
      previous.balance.cents + m.signed := by
    rw [← hamount, Numeric.add_exact, hamount, hsigned]
  refine ⟨previous, row, hlast, ?_, hamount.trans hsigned, hbalance.trans hexact, by omega, fun a => ?_⟩
  · rw [hop, PaymentMessage.command_id]
  · have hledger := @Database.ledgerOf_insert d { d with customerAccountLedger := t } _ ht a
    rwa [haccount, (Database.mem_ledgerOf.mp hprev).2] at hledger

end

/-- What a withdrawal leaves is not below zero, so it is no larger than the balance. -/
theorem MovedExactly.covered {d d' : Database} {event : PaymentEvent}
    (h : MovedExactly d d' (.withdrawn event)) {last : CustomerAccountLedger}
    (hlast : d.findLastLedgerEntry event.accountId = some last) : event.amount ≤ last.balance.cents := by
  obtain ⟨previous, row, hprevious, _, _, hbalance, hnonneg, _⟩ := h
  obtain rfl : last = previous := Option.some.inj (hlast.symm.trans hprevious)
  simp only [PaymentMessage.signed] at hbalance
  omega

/-- A payment of this id is in the account's ledger: the payment itself, where no two
have one id. -/
def AlreadyStored (E : Set PaymentMessage) (d : Database) (m : PaymentMessage) : Prop :=
  ∃ n ∈ E, n.event.id = m.event.id ∧ n.event.accountId = m.event.accountId ∧ Stored d n.command

section
variable {E : Set PaymentMessage} {d : Database} {m : PaymentMessage}

theorem alreadyStored_of_seen (hs : Sound E d) (hid : m.event.id ≠ m.event.accountId)
    (hseen : d.hasLedgerOperation m.event.accountId m.event.id = true) : AlreadyStored E d m := by
  obtain ⟨r, hr, hop⟩ := List.any_eq_true.mp hseen
  refine exists_stored hs hid ⟨r, ?_, ?_⟩
  · rwa [PaymentMessage.command_accountId]
  · rw [PaymentMessage.command_id]
    exact of_decide_eq_true hop

theorem AlreadyStored.seen (h : AlreadyStored E d m) :
    d.hasLedgerOperation m.event.accountId m.event.id = true := by
  obtain ⟨n, _, hid, haccount, r, hr, hop, _⟩ := h
  rw [PaymentMessage.command_accountId, haccount] at hr
  rw [PaymentMessage.command_id, hid] at hop
  exact List.any_eq_true.mpr ⟨r, hr, decide_eq_true hop⟩

/-- The handler raises, finds the payment stored, or moves the exact amount. -/
theorem onCreatePayment_exact (hs : Sound E d) (hid : m.event.id ≠ m.event.accountId) (now : Timestamp) :
    (∃ f, Job.onCreatePayment now d m.command = .error f) ∨
      (AlreadyStored E d m ∧ Job.onCreatePayment now d m.command = .ok d) ∨
      ∃ d', Job.onCreatePayment now d m.command = .ok d' ∧ MovedExactly d d' m := by
  cases hresult : Job.onCreatePayment now d m.command with
  | error f => exact .inl ⟨f, rfl⟩
  | ok d' =>
    obtain ⟨⟨account, ha, _⟩, ⟨hseen, rfl⟩ | ⟨previous, row, t, _, hlast, hnonneg, hrow, ht, rfl⟩⟩ :=
      Job.onCreatePayment_ok hresult
    · rw [PaymentMessage.command_accountId, PaymentMessage.command_id] at hseen
      exact .inr (.inl ⟨alreadyStored_of_seen hs hid hseen, rfl⟩)
    · rw [PaymentMessage.command_accountId] at ha hlast
      have hprev := List.mem_of_getLast? ((hs.findLast_eq ha).symm.trans hlast)
      exact .inr (.inr ⟨_, rfl, movedExactly_of_insert hlast hprev hnonneg hrow ht⟩)

end

/-- **Exact money arithmetic**, of a payment that does not come under its account's id:
by the handler alone, and among all the other parties. -/
theorem exact_money {T : Type} [DecidableEq T] (mac : VersionToken.Digest) (E : Set PaymentMessage)
    (w : Service T) (h : Reachable mac E w) (m : PaymentMessage) (hid : m.event.id ≠ m.event.accountId) :
    (∀ now, (∃ f, Job.onCreatePayment now w.committed m.command = .error f) ∨
      (AlreadyStored E w.committed m ∧
        Job.onCreatePayment now w.committed m.command = .ok w.committed) ∨
      ∃ d', Job.onCreatePayment now w.committed m.command = .ok d' ∧ MovedExactly w.committed d' m) ∧
    (∀ event last now, m = .withdrawn event →
      w.committed.findLastLedgerEntry event.accountId = some last → last.balance.cents < event.amount →
      ¬ AlreadyStored E w.committed m →
      ∃ f, Job.onCreatePayment now w.committed m.command = .error f) ∧
    ∀ a w' phase, w.running a.actor = some (.payment ⟨m.command, phase⟩) →
      w.next (service mac) a = some w' →
      (w'.committed = w.committed ∧ (a = .commit a.actor → AlreadyStored E w.committed m)) ∨
        ((∀ f, phase ≠ .raised f) ∧ MovedExactly w.committed w'.committed m) := by
  have hs := h.sound
  refine ⟨onCreatePayment_exact hs hid, ?_, fun a w' phase hl hw => ?_⟩
  · rintro event last now rfl hlast hlarger hfresh
    rcases onCreatePayment_exact hs hid now with herror | ⟨hstored, _⟩ | ⟨d', _, hmoved⟩
    · exact herror
    · exact absurd hstored hfresh
    · exact absurd (hmoved.covered hlast) (by omega)
  · by_cases ha : a = .commit a.actor
    · rw [ha] at hw
      obtain ⟨l, d', hl', hc, rfl⟩ := World.next_commit hw
      obtain rfl := Option.some.inj (hl.symm.trans hl')
      have hphase := (h.valid.holds _ _ hl).phase
      rcases Job.commit_some hc with ⟨hduplicate, rfl⟩ | ⟨row, t, hflushed, ht, rfl⟩
      · obtain rfl : phase = .duplicate := hduplicate
        have hseen : w.committed.hasLedgerOperation m.command.accountId m.command.id = true := hphase
        rw [PaymentMessage.command_accountId, PaymentMessage.command_id] at hseen
        exact .inl ⟨rfl, fun _ => alreadyStored_of_seen hs hid hseen⟩
      · obtain rfl : phase = .flushed row := hflushed
        obtain ⟨⟨_, account, hfound, _⟩, previous, now, ⟨_, hlast, hnonneg⟩, hrow⟩ := hphase
        rw [PaymentMessage.command_accountId] at hfound hlast
        refine .inr ⟨fun f hf => (by cases hf), ?_⟩
        exact movedExactly_of_insert ((hs.findLast_eq hfound).trans hlast) (List.mem_of_getLast? hlast)
          hnonneg hrow ht
    · rcases World.next_committed hw with hsame | ⟨_, hcommit, _⟩
      · exact .inl ⟨hsame, fun hcommit => absurd hcommit ha⟩
      · exact absurd hcommit ha

/-- More than the account has, and more than the context's digits can tell apart. -/
def hugeWithdrawal : PaymentMessage :=
  .withdrawn { openingDeposit.event with id := 8, amount := 10 ^ 40 + 1, positive := by decide }

/-- After a deposit of 10.00, a huge withdrawal is refused; the deposit itself has moved
the balance by its own amount when it was committed. -/
theorem openingDeposit_exact : ∃ w w' : Service Nat, Reachable (fun _ => 0) Set.univ w ∧
    w.next (service fun _ => 0) (.commit 2) = some w' ∧
    (∃ f, Job.onCreatePayment 9 w.committed hugeWithdrawal.command = .error f) ∧
    MovedExactly w.committed w'.committed openingDeposit := by
  have hrun : ((initial Nat openingCustomer).run (service fun _ => 0) (openingRun.take 10)).map (fun w =>
      ((w.running 2).bind Party.event,
      (w.committed.findLastLedgerEntry 1).map (·.balance.cents), w.committed.hasLedgerOperation 1 8,
      (w.next (service fun _ => 0) (.commit 2)).map fun w' =>
        decide ((w.committed.ledgerOf 1).length < (w'.committed.ledgerOf 1).length))) =
      some (some openingDeposit.command, some 0, false, some true) := by decide
  obtain ⟨w, hw, hfields⟩ := Option.map_eq_some_iff.mp hrun
  simp only [Prod.mk.injEq, Option.map_eq_some_iff] at hfields
  obtain ⟨hrunning, ⟨last, hlast, hbalance⟩, hunseen, w', hw', hgrown⟩ := hfields
  have hreach : Reachable (fun _ => 0) Set.univ w :=
    ⟨openingCustomer, _, fun t e ht => openingRun_enqueued (Set.mem_univ _) t e
      (List.mem_of_mem_take ht), hw⟩
  have hfresh : ¬ AlreadyStored Set.univ w.committed hugeWithdrawal := fun hstored =>
    Bool.false_ne_true (hunseen.symm.trans hstored.seen)
  refine ⟨w, w', hreach, hw',
    (exact_money _ _ w hreach hugeWithdrawal (by decide)).2.1 _ last 9 rfl hlast ?_ hfresh, ?_⟩
  · rw [hbalance]
    decide
  · obtain ⟨p, hp, hevent⟩ := Option.bind_eq_some_iff.mp hrunning
    obtain ⟨phase, rfl⟩ := Party.event_some hevent
    rcases (exact_money _ _ w hreach openingDeposit (by decide)).2.2 (.commit 2) w' phase hp hw' with
      ⟨hsame, _⟩ | ⟨_, hmoved⟩
    · rw [hsame] at hgrown
      simp at hgrown
    · exact hmoved

/-! ### Payments that leave no row of their own -/

def withdrawal : PaymentMessage :=
  .withdrawn { openingDeposit.event with id := 8, amount := 600, positive := by decide }

/-- After the deposit of 10.00, a withdrawal of 6.00. -/
def withdrawingRun : List (Step Nat) :=
  let input : Input := ⟨6, []⟩
  openingRun ++ [.begin 3 (.payment withdrawal.command), .statement 3 input, .statement 3 input,
    .statement 3 input, .statement 3 input, .commit 3]

theorem withdrawingRun_enqueued (t : Nat) (e : CreatePayment)
    (ht : Action.begin t (Request.payment e) ∈ withdrawingRun) :
    ∃ m ∈ ({openingDeposit, withdrawal} : Set PaymentMessage), m.command = e := by
  rcases List.mem_append.mp ht with ht | ht
  · exact openingRun_enqueued (.inl rfl) t e ht
  · simp only [List.mem_cons, Action.begin.injEq, Request.payment.injEq, reduceCtorEq, or_false,
      List.not_mem_nil] at ht
    exact ⟨withdrawal, .inr rfl, ht.2.symm⟩

/-- The huge withdrawal, under its account's id. -/
def swallowedWithdrawal : PaymentMessage := .withdrawn { hugeWithdrawal.event with id := 1 }

/-- The handler runs again for the withdrawal, when 4.00 are left, and for a huge one that
it takes for the opening row: it returns, and the ledger is as it was. -/
theorem withdrawals_absorbed : ∃ w : Service Nat,
    Reachable (fun _ => 0) {openingDeposit, withdrawal} w ∧
    (w.committed.findLastLedgerEntry 1).map (·.balance.cents) = some 400 ∧
    Job.onCreatePayment 9 w.committed withdrawal.command = .ok w.committed ∧
    Job.onCreatePayment 9 w.committed swallowedWithdrawal.command = .ok w.committed := by
  have hrun : ((initial Nat openingCustomer).run (service fun _ => 0) withdrawingRun).map (fun w =>
      ((w.committed.findLastLedgerEntry 1).map (·.balance.cents), w.committed.hasLedgerOperation 1 8,
        w.committed.hasLedgerOperation 1 1, (w.committed.findById 1).map (·.status))) =
      some (some 400, true, true, some .active) := by decide
  obtain ⟨w, hw, hfields⟩ := Option.map_eq_some_iff.mp hrun
  simp only [Prod.mk.injEq] at hfields
  obtain ⟨hbalance, hseen, hopening, hstatus⟩ := hfields
  obtain ⟨account, hfound, hactive⟩ := Option.map_eq_some_iff.mp hstatus
  exact ⟨w, ⟨openingCustomer, _, withdrawingRun_enqueued, hw⟩, hbalance,
    Job.onCreatePayment_seen hfound hactive hseen, Job.onCreatePayment_seen hfound hactive hopening⟩

end Statement.System
