import Statement.Payment.Job
import Statement.System.Sound

/-! A payment job among the other parties.

From the lock on, nobody else changes the account or its ledger, so what the job
has read stays true until it commits, and the row it inserts follows the last
one. -/
namespace Statement.System
open Domain Foundation Payment

/-- The job's account, read under its lock. -/
def Locked (H : Set Lock) (d : Database) (e : CreatePayment) : Prop :=
  .accountRow e.accountId ∈ H ∧ ∃ account, d.findById e.accountId = some account ∧
    account.status = .active

/-- The entry to follow is the last one, and the balance suffices. -/
def Follows (d : Database) (e : CreatePayment) (previous : CustomerAccountLedger) : Prop :=
  d.hasLedgerOperation e.accountId e.id = false ∧
    (d.ledgerOf e.accountId).getLast? = some previous ∧
    0 ≤ Decimal.add previous.balance.cents e.signedAmount

def JobPhaseHolds (H : Set Lock) (d : Database) (e : CreatePayment) : JobPhase → Prop
  | .begun => True
  | .locked => Locked H d e
  | .unseen => Locked H d e ∧ d.hasLedgerOperation e.accountId e.id = false
  | .following previous => Locked H d e ∧ Follows d e previous
  | .flushed row => Locked H d e ∧
      ∃ previous now, Follows d e previous ∧ (Job.entry e previous now).store = some row
  | .duplicate => d.hasLedgerOperation e.accountId e.id = true
  | .raised f => f ≠ .ledgerNotFound

structure JobHolds (E : Set PaymentMessage) (H : Set Lock) (d : Database) (j : Job) : Prop where
  enqueued : ∃ m ∈ E, m.command = j.event
  phase : JobPhaseHolds H d j.event j.phase

variable {E : Set PaymentMessage} {H : Set Lock} {d d' : Database}

theorem Locked.mono {e : CreatePayment} {H' : Set Lock} (h : Locked H d e) (hH : H ⊆ H') :
    Locked H' d e := ⟨hH h.1, h.2⟩

/-- The last entry is found, so `ledgerNotFound` is never raised. -/
theorem Locked.last {e : CreatePayment} (h : Locked H d e) (hs : Sound E d) :
    ∃ previous, d.findLastLedgerEntry e.accountId = some previous ∧
      (d.ledgerOf e.accountId).getLast? = some previous := by
  obtain ⟨_, account, ha, _⟩ := h
  obtain ⟨init, last, hrows⟩ :=
    (List.eq_nil_or_concat _).resolve_left (hs.ledger _ _ ha).journal.ne_nil
  have hlast : (d.ledgerOf e.accountId).getLast? = some last := by
    rw [hrows, List.concat_eq_append, List.getLast?_concat]
  exact ⟨last, by rw [hs.findLast_eq ha, hlast], hlast⟩

theorem job_statement {j j' : Job} {now : Timestamp} {ks : List Lock} (hs : Sound E d)
    (h : JobHolds E H d j) (hst : j.statement now d = some (ks, j')) :
    JobHolds E (H ∪ {k | k ∈ ks}) d j' := by
  obtain ⟨e, phase⟩ := j
  obtain ⟨hE, hp⟩ := h
  have hsub : H ⊆ H ∪ {k | k ∈ ks} := Set.subset_union_left
  cases phase with
  | begun =>
    simp only [Job.statement] at hst
    split at hst
    · cases hst
      exact ⟨hE, JobFailure.noConfusion⟩
    · rename_i account ha
      cases hst
      refine ⟨hE, ?_⟩
      by_cases hact : account.status = .active
      · simp only [hact, if_true]
        exact ⟨.inr List.mem_cons_self, account, ha, hact⟩
      · simp only [hact, if_false]
        exact JobFailure.noConfusion
  | locked =>
    simp only [Job.statement, Option.some.injEq, Prod.mk.injEq] at hst
    obtain ⟨rfl, rfl⟩ := hst
    refine ⟨hE, ?_⟩
    cases hop : d.hasLedgerOperation e.accountId e.id with
    | true => exact hop
    | false => exact ⟨Locked.mono hp hsub, hop⟩
  | unseen =>
    obtain ⟨hlocked, hop⟩ := hp
    obtain ⟨previous, hfind, hlast⟩ := hlocked.last hs
    simp only [Job.statement, hfind, Option.some.injEq, Prod.mk.injEq] at hst
    obtain ⟨rfl, rfl⟩ := hst
    refine ⟨hE, ?_⟩
    by_cases hneg : Decimal.add previous.balance.cents e.signedAmount < 0
    · simp only [hneg, if_true]
      exact JobFailure.noConfusion
    · simp only [hneg, if_false]
      exact ⟨hlocked.mono hsub, hop, hlast, by omega⟩
  | following previous =>
    obtain ⟨hlocked, hf⟩ := hp
    simp only [Job.statement] at hst
    split at hst
    · cases hst
      exact ⟨hE, JobFailure.noConfusion⟩
    · rename_i row hrow
      split at hst
      · cases hst
        exact ⟨hE, JobFailure.noConfusion⟩
      · cases hst
        exact ⟨hE, hlocked.mono Set.subset_union_left, previous, now, hf, hrow⟩
  | flushed row => cases hst
  | duplicate => cases hst
  | raised f => cases hst

/-- A row that the job is about to insert: where it goes and what it says. -/
theorem flushed_row {e : CreatePayment} {row : CustomerAccountLedger} (hE : ∃ m ∈ E, m.command = e)
    (h : JobPhaseHolds H d e (.flushed row)) :
    ∃ previous, (d.ledgerOf e.accountId).getLast? = some previous ∧ row.accountId = e.accountId ∧
      row.operationId = e.id ∧ row.no = previous.no + 1 ∧
      row.balance.cents = previous.balance.cents + row.amount.cents ∧ 0 ≤ row.balance.cents ∧
      Paid E row := by
  obtain ⟨_, previous, now, ⟨_, hlast, hnonneg⟩, hstore⟩ := h
  obtain ⟨haccount, hno, hamount, hbalance, htype, hop⟩ := Job.entry_store hstore
  obtain ⟨m, hm, rfl⟩ := hE
  have hprev : previous.accountId = m.command.accountId :=
    (Database.mem_ledgerOf.mp (List.mem_of_getLast? hlast)).2
  have hsigned := PaymentMessage.command_exact (Numeric.store_some.mpr hamount)
  refine ⟨previous, hlast, haccount.trans hprev, hop, hno, ?_, by omega, m, hm, ?_, ?_, ?_, ?_⟩
  · rw [hbalance, ← hamount, Numeric.add_exact]
  · rw [hop, PaymentMessage.command_id]
  · rw [haccount, hprev, PaymentMessage.command_accountId]
  · rw [htype, PaymentMessage.command_type]
  · rw [hamount, hsigned]

/-- The insert meets no unique violation when the job commits. -/
theorem job_ready {j : Job} (hs : Sound E d) (h : JobHolds E H d j) {row : CustomerAccountLedger}
    (hr : j.phase = .flushed row) : ∃ d', j.commit d = some d' := by
  obtain ⟨e, phase⟩ := j
  subst hr
  obtain ⟨hE, hp⟩ := h
  obtain ⟨previous, hlast, haccount, hop, hno, _⟩ := flushed_row hE hp
  obtain ⟨⟨_, account, ha, _⟩, _, _, ⟨hfresh, _⟩, _⟩ := hp
  have hfree : ¬ d.customerAccountLedger.conflicts row := by
    rintro ⟨b, hb, hba, hclash⟩
    have hmem : b ∈ d.ledgerOf e.accountId := Database.mem_ledgerOf.mpr ⟨hb, hba.trans haccount⟩
    rcases hclash with hbn | hbo
    · have := (hs.ledger _ _ ha).journal.no_le_last hlast hmem
      omega
    · exact Database.hasLedgerOperation_eq_false.mp hfresh b hmem (hbo.trans hop)
  obtain ⟨t, ht, _⟩ := Table.insert_of_free hfree
  exact ⟨_, by simp [Job.commit, ht]; rfl⟩

theorem job_commit {j : Job} (hs : Sound E d) (h : JobHolds E H d j) (hc : j.commit d = some d') :
    Sound E d' ∧ Evolves H d d' := by
  obtain ⟨e, phase⟩ := j
  obtain ⟨hE, hp⟩ := h
  rcases Job.commit_some hc with ⟨_, rfl⟩ | ⟨row, t, hphase, ht, rfl⟩
  · exact ⟨hs, .refl H d'⟩
  · cases hphase
    obtain ⟨previous, hlast, haccount, hop, hno, hbalance, hnonneg, hpaid⟩ := flushed_row hE hp
    obtain ⟨⟨hlock, account, ha, _⟩, _⟩ := hp
    set d' : Database := { d with customerAccountLedger := t } with hd'
    have hins : d.customerAccountLedger.insert row = some d'.customerAccountLedger := ht
    have hledger := Database.ledgerOf_insert hins
    have hfind : ∀ a, d'.findById a = d.findById a := Database.findById_congr rfl
    have hother : ∀ a, a ≠ e.accountId → d'.ledgerOf a = d.ledgerOf a := by
      intro a hne
      rw [hledger a, haccount, if_neg (Ne.symm hne), List.append_nil]
    have hgrows : ∀ a, d.ledgerOf a <+: d'.ledgerOf a := fun a => ⟨_, (hledger a).symm⟩
    refine ⟨⟨fun a x hx => ?_, fun a hnone => ?_, fun c hcm => ?_, hs.noIncident⟩,
      ⟨rfl, hgrows, fun a x _ hnot => ?_, fun a x hx => ?_, fun _ hfree _ _ => hfree,
        fun _ hfree _ => hfree⟩⟩
    · rw [hfind] at hx
      by_cases hae : a = e.accountId
      · subst hae
        rw [hledger, if_pos haccount]
        exact (hs.ledger _ x hx).follow hlast hno hbalance hnonneg hpaid
      · rw [hother a hae]
        exact hs.ledger a x hx
    · rw [hfind] at hnone
      rw [hother a (fun he => by rw [he, ha] at hnone; cases hnone)]
      exact hs.owned a hnone
    · obtain ⟨r, hr, hrc⟩ := hs.checkpoint c hcm
      exact ⟨r, (hgrows _).subset hr, hrc⟩
    · exact hother a fun he => hnot (he ▸ hlock)
    · exact ⟨x, (hfind a).trans hx, .inl rfl⟩

/-- Nothing a job has seen is undone by a commit under compatible locks. -/
theorem job_stable {j : Job} {H' : Set Lock} (hg : Evolves H d d') (hcompatible : Compatible H H')
    (h : JobHolds E H' d j) : JobHolds E H' d' j := by
  obtain ⟨e, phase⟩ := j
  obtain ⟨hE, hp⟩ := h
  refine ⟨hE, ?_⟩
  have hlocked : Locked H' d e → Locked H' d' e ∧ d'.ledgerOf e.accountId = d.ledgerOf e.accountId := by
    rintro ⟨hlock, account, ha, hact⟩
    obtain ⟨ha', hl⟩ := hg.kept ha (hcompatible.exclusive_right List.mem_cons_self hlock)
    exact ⟨⟨hlock, account, ha', hact⟩, hl⟩
  have hop : d'.ledgerOf e.accountId = d.ledgerOf e.accountId →
      d'.hasLedgerOperation e.accountId e.id = d.hasLedgerOperation e.accountId e.id := by
    intro hl
    rw [Database.hasLedgerOperation, hl]
    rfl
  cases phase with
  | begun => exact trivial
  | locked => exact (hlocked hp).1
  | unseen =>
    obtain ⟨hl, hsame⟩ := hlocked hp.1
    exact ⟨hl, (hop hsame).trans hp.2⟩
  | following previous =>
    obtain ⟨hl, hsame⟩ := hlocked hp.1
    obtain ⟨hfresh, hlast, hnonneg⟩ := hp.2
    exact ⟨hl, (hop hsame).trans hfresh, hsame ▸ hlast, hnonneg⟩
  | flushed row =>
    obtain ⟨hl, hsame⟩ := hlocked hp.1
    obtain ⟨_, previous, now, ⟨hfresh, hlast, hnonneg⟩, hrow⟩ := hp
    exact ⟨hl, previous, now, ⟨(hop hsame).trans hfresh, hsame ▸ hlast, hnonneg⟩, hrow⟩
  | duplicate =>
    obtain ⟨r, hr, hro⟩ := List.any_eq_true.mp hp
    exact List.any_eq_true.mpr ⟨r, hg.mem_ledger hr, hro⟩
  | raised f => exact hp

end Statement.System
