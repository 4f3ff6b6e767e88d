import Statement.Verification.Progress

/-! Incremental verification against one full run.

A run advances the accounts it picks and leaves the others (`run_cases`), so what
each account comes to never changes (`rerun_eventual`), and each run that picks an
account has less to do. So runs reach a state that has nothing left, and that is
the state one run over everything reaches, unless some break cannot be recorded:
that run raises, and so does every later one that picks the account. -/
namespace Statement.Verification
open Domain Foundation

/-! ### A run, account by account -/

theorem target_start (d : Database) (a : UUID) :
    (target a (d.findLatestCheckpoint a)).start = (outcome d a).start := by
  unfold outcome
  cases d.findLatestCheckpoint a <;> rfl

theorem window_eq {d : Database} {p : BatchParams} {t : Target}
    (h : t.start = (outcome d t.accountId).start) :
    window d p t = ((outcome d t.accountId).rest (d.ledgerOf t.accountId)).take p.windowRows := by
  rw [Outcome.rest, ← h]
  rfl

theorem check_anchorBalance {p : Position} {r : CustomerAccountLedger}
    (h : check p r = some .anchorBalance) : r.no = p.no := by
  unfold check flag at h
  split at h
  · rename_i hr
    exact hr.1
  · split_ifs at h <;> cases h

/-- A report records the incident of its walk's break. -/
theorem report_incident {p : BatchParams} {t : Target} {w : List CustomerAccountLedger}
    (hs : w.Pairwise fun r q => r.no < q.no) {previous : Position} {row : CustomerAccountLedger}
    {kind : LedgerDiscrepancyKind} (h : walk check position t.start w = .broken previous row kind) :
    (report p t w).breakKind = some kind ∧ (report p t w).incident = incidentOf previous row kind := by
  obtain ⟨hno, hkind, hamount, hbalance, hprevNo, hprevBalance⟩ := report_break p t w h
  have hanchor : kind = .anchorBalance → previous.balance = t.anchorBalance := by
    rintro rfl
    obtain ⟨pre, post, rfl, hpre, hcheck⟩ := walk_broken h
    have hprev := walk_clean_last hpre
    rcases List.eq_nil_or_concat pre with rfl | ⟨pre, q, rfl⟩
    · exact congrArg Position.balance hprev
    · rw [List.concat_eq_append] at hs hprev
      rw [List.getLast?_concat] at hprev
      have hlt := (List.pairwise_append.mp hs).2.2 q (by simp) row List.mem_cons_self
      have hno := check_anchorBalance hcheck
      rw [hprev] at hno
      exact absurd hno (ne_of_gt hlt)
  have hexpected : (report p t w).expectedBalance = expectedBalance previous row kind := by
    rw [CustomerAccountVerification.expectedBalance, hkind, hprevBalance, hamount, report_anchorBalance]
    cases kind with
    | anchorBalance => rw [expectedBalance, hanchor rfl]
    | gap => rfl
    | balance => rfl
    | gapBalance => rfl
  refine ⟨hkind, ?_⟩
  rw [CustomerAccountVerification.incident, CustomerAccountVerification.storedExpectedBalance, hexpected,
    hno, hkind, hprevNo, hbalance, incidentOf]
  cases expectedBalance previous row kind with
  | none => rfl
  | some e => cases hs : Numeric.store e <;> simp [hs]

/-- Recording a report is advancing its account. -/
theorem report_advance {d : Database} {p : BatchParams} {t : Target}
    (ht : t.start = (outcome d t.accountId).start) :
    ((report p t (window d p t)).unrecordable ↔
      (outcome d t.accountId).advance p.windowRows (d.ledgerOf t.accountId) = none) ∧
    ∀ o, (outcome d t.accountId).advance p.windowRows (d.ledgerOf t.accountId) = some o →
      (report p t (window d p t)).outcome (outcome d t.accountId) = o := by
  have hadvance : (outcome d t.accountId).advance p.windowRows (d.ledgerOf t.accountId) =
      (outcome d t.accountId).settle (walk check position t.start (window d p t)) := by
    rw [Outcome.advance, ← ht, ← window_eq ht]
  have hbank : (if (report p t (window d p t)).shouldCheckpoint then
        some (⟨(report p t (window d p t)).lastGoodNo, (report p t (window d p t)).lastGoodBalance⟩ :
          Position) else (outcome d t.accountId).checkpoint) =
      (outcome d t.accountId).bank (walk check position t.start (window d p t)).reached := by
    rw [← report_reached p, Outcome.bank, ← ht]
    simp only [CustomerAccountVerification.shouldCheckpoint, report_anchorNo, decide_eq_true_eq]
    rfl
  rw [hadvance]
  cases hpass : walk check position t.start (window d p t) with
  | clean last =>
    have hkind := (report_clean p t (window d p t)).mpr ⟨last, hpass⟩
    have hincident : (report p t (window d p t)).incident = none := by
      simp [CustomerAccountVerification.incident, hkind]
    refine ⟨by simp [CustomerAccountVerification.unrecordable, hkind, Outcome.settle], fun o ho => ?_⟩
    cases ho
    rw [CustomerAccountVerification.outcome, hincident, hbank, hpass]
    rfl
  | broken previous row kind =>
    obtain ⟨hkind, hincident⟩ := report_incident (p := p) (window_sorted d p t) hpass
    refine ⟨?_, fun o ho => ?_⟩
    · simp [CustomerAccountVerification.unrecordable, hkind, hincident, Outcome.settle]
    · obtain ⟨i, hi, rfl⟩ := Option.map_eq_some_iff.mp ho
      rw [CustomerAccountVerification.outcome, hincident, hi, hbank, hpass]
      rfl

/-- The accounts that a run picks. -/
def picked (d : Database) (p : BatchParams) (scan : List CustomerAccount) : List UUID :=
  (targets d p scan).map (·.accountId)

/-- A run's inputs: parameters, the order of the account table, and the times of
its writes. -/
structure RunInput where
  params : BatchParams
  scan : List CustomerAccount
  clock : Write → Timestamp

namespace RunInput

def verify (i : RunInput) (d : Database) : Option Database :=
  verifyCustomerAccountLedger i.params i.scan i.clock d

/-- A run that raises rolls back. -/
def rerun (i : RunInput) (d : Database) : Database := (i.verify d).getD d

/-- A run that goes through records what its query selects. -/
theorem verify_some {i : RunInput} {d d' : Database} (h : i.verify d = some d') :
    (finalSelect d i.params i.scan).foldlM (record i.clock) d = some d' := by
  obtain ⟨batch, hbatch, hrecord⟩ := Option.bind_eq_some_iff.mp h
  obtain ⟨_, rfl⟩ := nextBatch_some hbatch
  exact hrecord

end RunInput

/-- A successful run: the accounts it picked have advanced. -/
structure Advanced (i : RunInput) (d d' : Database) : Prop where
  untouched : Untouched d d'
  advances : ∀ a ∈ picked d i.params i.scan,
    (outcome d a).advance i.params.windowRows (d.ledgerOf a) = some (outcome d' a)
  others : ∀ a, a ∉ picked d i.params i.scan → outcome d' a = outcome d a
  times : ∀ c ∈ d'.customerAccountLedgerVerified.rows,
    c ∈ d.customerAccountLedgerVerified.rows ∨ ∃ w, c.verifiedAt = i.clock w

theorem finalSelect_nodup {d : Database} {p : BatchParams} {scan : List CustomerAccount}
    (h : (scan.map (·.id)).Nodup) : ((finalSelect d p scan).map (·.accountId)).Nodup := by
  rw [finalSelect_eq d p h, List.map_map]
  simpa [Function.comp_def] using targets_nodup d p h

theorem target_picked_start {d : Database} {p : BatchParams} {scan : List CustomerAccount} {t : Target}
    (ht : t ∈ targets d p scan) : t.start = (outcome d t.accountId).start := by
  obtain ⟨a, _, rfl, _⟩ := target_mem ht
  exact target_start d a.id

/-- A batch is recorded in the tables that it was read from, as far as they are
the same for its accounts. -/
theorem finalSelect_fresh {d s : Database} {p : BatchParams} {scan : List CustomerAccount}
    (h : (scan.map (·.id)).Nodup) (hsame : ∀ a ∈ picked s p scan, outcome d a = outcome s a)
    {v : CustomerAccountVerification} (hv : v ∈ finalSelect s p scan) : Fresh d v := by
  obtain ⟨t, ht, rfl⟩ := mem_finalSelect h hv
  have houtcome : outcome d t.accountId = outcome s t.accountId := hsame _ (List.mem_map_of_mem ht)
  refine ⟨?_, ?_⟩
  · rw [report_accountId, houtcome]
    obtain ⟨a, _, rfl, _, hopen, _⟩ := target_mem ht
    exact congrArg (Option.map _) hopen
  · rw [report_accountId, report_anchorNo, houtcome, ← target_picked_start ht]
    rfl

/-- Recording a batch on tables that are, for its accounts, those it was read from. -/
theorem record_batch {d s : Database} {p : BatchParams} {scan : List CustomerAccount}
    (clock : Write → Timestamp) (hscan : scan.Perm s.customerAccount.rows)
    (hsame : ∀ a ∈ picked s p scan, outcome d a = outcome s a) :
    ((∃ a ∈ picked s p scan, (outcome s a).advance p.windowRows (s.ledgerOf a) = none) ∧
        (finalSelect s p scan).foldlM (record clock) d = none) ∨
      ∃ d', (finalSelect s p scan).foldlM (record clock) d = some d' ∧ Untouched d d' ∧
        (∀ a ∈ picked s p scan,
          (outcome s a).advance p.windowRows (s.ledgerOf a) = some (outcome d' a)) ∧
        (∀ a, a ∉ picked s p scan → outcome d' a = outcome d a) ∧
        ∀ c ∈ d'.customerAccountLedgerVerified.rows,
          c ∈ d.customerAccountLedgerVerified.rows ∨ ∃ w, c.verifiedAt = clock w := by
  have hnodup := Database.accountIds_nodup hscan
  have hfresh : ∀ v ∈ finalSelect s p scan, Fresh d v := fun v hv => finalSelect_fresh hnodup hsame hv
  rcases batch_cases clock (finalSelect_nodup hnodup) hfresh with
    ⟨⟨v, hv, hu⟩, hnone⟩ | ⟨hall, d', hd', heffect⟩
  · obtain ⟨t, ht, rfl⟩ := mem_finalSelect hnodup hv
    exact .inl ⟨⟨t.accountId, List.mem_map_of_mem ht, (report_advance (target_picked_start ht)).1.mp hu⟩, hnone⟩
  · refine .inr ⟨d', hd', heffect.untouched, fun a ha => ?_, fun a ha => ?_, heffect.times⟩
    · obtain ⟨t, ht, rfl⟩ := List.mem_map.mp ha
      have hv : report p t (window s p t) ∈ finalSelect s p scan :=
        finalSelect_eq s p hnodup ▸ List.mem_map_of_mem ht
      obtain ⟨hiff, houtcome⟩ := report_advance (p := p) (target_picked_start ht)
      cases ho : (outcome s t.accountId).advance p.windowRows (s.ledgerOf t.accountId) with
      | none => exact absurd (hiff.mpr ho) (hall _ hv)
      | some o =>
        have hverified := heffect.verified _ hv
        rw [report_accountId, hsame _ ha, houtcome o ho] at hverified
        rw [hverified]
    · refine heffect.others a fun v hv he => ha ?_
      obtain ⟨t, ht, rfl⟩ := mem_finalSelect hnodup hv
      exact List.mem_map.mpr ⟨t, ht, by rw [← he, report_accountId]⟩

/-- The query raises, or a record of the batch does, or the accounts that were picked
have advanced. -/
theorem run_cases {i : RunInput} {d : Database} (hscan : i.scan.Perm d.customerAccount.rows) :
    ((raises d i.params i.scan = true ∨ ∃ a ∈ picked d i.params i.scan,
        (outcome d a).advance i.params.windowRows (d.ledgerOf a) = none) ∧ i.verify d = none) ∨
      ∃ d', i.verify d = some d' ∧ Advanced i d d' := by
  cases hraises : raises d i.params i.scan with
  | true =>
    refine .inl ⟨.inl rfl, ?_⟩
    rw [RunInput.verify, verifyCustomerAccountLedger, nextBatch, if_pos hraises]
    rfl
  | false =>
    have hverify : i.verify d = (finalSelect d i.params i.scan).foldlM (record i.clock) d := by
      rw [RunInput.verify, verifyCustomerAccountLedger, nextBatch, hraises, if_neg Bool.false_ne_true]
      rfl
    rw [hverify]
    rcases record_batch i.clock hscan (fun _ _ => rfl) with
      ⟨hunrecordable, hnone⟩ | ⟨d', hd', huntouched, hadvances, hothers, htimes⟩
    · exact .inl ⟨.inr hunrecordable, hnone⟩
    · exact .inr ⟨d', hd', huntouched, hadvances, hothers, htimes⟩

/-! ### Which accounts a run picks -/

theorem throughNo_eq (d : Database) (a : UUID) :
    throughNo (d.findLatestCheckpoint a) = (outcome d a).start.no :=
  congrArg Position.no (target_start d a)

theorem picked_unfinished {d : Database} {p : BatchParams} {scan : List CustomerAccount} {a : UUID}
    (h : a ∈ picked d p scan) :
    (outcome d a).Unfinished (d.ledgerOf a) ∧ ∃ x ∈ scan, x.id = a := by
  obtain ⟨t, ht, rfl⟩ := List.mem_map.mp h
  obtain ⟨x, hx, rfl, _, hopen, l, hl, hlt⟩ := target_mem ht
  refine ⟨⟨congrArg (Option.map _) hopen, l, hl, ?_⟩, x, hx, rfl⟩
  rw [← throughNo_eq]
  exact hlt

/-- Every checkpoint is older than the limit. -/
def AllStale (p : BatchParams) (d : Database) : Prop :=
  ∀ c ∈ d.customerAccountLedgerVerified.rows, p.stale c

/-- Such a query does not raise. -/
theorem AllStale.nextBatch {d : Database} {p : BatchParams} (h : AllStale p d) (scan : List CustomerAccount) :
    nextBatch d p scan = some (finalSelect d p scan) :=
  nextBatch_of_range fun _ _ c hc => .inl (h c (List.mem_filter.mp (head_orderBy_le hc).1).1)

theorem eligible_of_unfinished {d : Database} {p : BatchParams} (hstale : AllStale p d)
    {scan : List CustomerAccount} {x : CustomerAccount} (hx : x ∈ scan)
    (h : (outcome d x.id).Unfinished (d.ledgerOf x.id)) :
    (x.id, d.findLatestCheckpoint x.id) ∈
      (scan.map fun a => (a.id, d.findLatestCheckpoint a.id)).filter fun y => selected d p y.1 y.2 := by
  obtain ⟨hincident, l, hl, hlt⟩ := h
  refine List.mem_filter.mpr ⟨List.mem_map_of_mem hx, decide_eq_true ⟨.inl ?_, ?_, l, hl, ?_⟩⟩
  · cases hc : d.findLatestCheckpoint x.id with
    | none => exact trivial
    | some c => exact hstale c (List.mem_filter.mp (head_orderBy_le hc).1).1
  · simpa [outcome] using hincident
  · rw [throughNo_eq]
    exact hlt

theorem mem_picked_of_covers {d : Database} {p : BatchParams} (hstale : AllStale p d)
    {scan : List CustomerAccount} {x : CustomerAccount} (hx : x ∈ scan)
    (h : (outcome d x.id).Unfinished (d.ledgerOf x.id)) (hcovers : scan.length ≤ p.accountsPerRun) :
    x.id ∈ picked d p scan := by
  have hmem := eligible_of_unfinished hstale hx h
  rw [picked, targets, List.map_map, List.take_of_length_le]
  · exact List.mem_map.mpr ⟨_, mem_orderBy.mpr hmem, rfl⟩
  · rw [length_orderBy]
    exact (List.length_filter_le _ _).trans (by rw [List.length_map]; exact hcovers)

theorem picked_ne_nil {d : Database} {p : BatchParams} (hstale : AllStale p d)
    {scan : List CustomerAccount} {x : CustomerAccount} (hx : x ∈ scan)
    (h : (outcome d x.id).Unfinished (d.ledgerOf x.id)) (hp : 1 ≤ p.accountsPerRun) :
    picked d p scan ≠ [] := by
  have hmem := eligible_of_unfinished hstale hx h
  rw [picked, targets, List.map_map, Ne, List.map_eq_nil_iff, List.take_eq_nil_iff, not_or]
  exact ⟨by omega, List.ne_nil_of_mem (mem_orderBy.mpr hmem)⟩

/-! ### Run after run -/

namespace RunInput

/-- A run over the account table that reads past its anchors. -/
structure Reads (i : RunInput) (d : Database) : Prop where
  rows : 1 ≤ i.params.rowsPerAccount
  scan : i.scan.Perm d.customerAccount.rows

/-- A run with the given limits for which every checkpoint is stale. -/
structure Fair (accountsPerRun rowsPerAccount : Nat) (i : RunInput) (d : Database) : Prop where
  accounts : i.params.accountsPerRun = accountsPerRun
  rows : i.params.rowsPerAccount = rowsPerAccount
  scan : i.scan.Perm d.customerAccount.rows
  stale : AllStale i.params d

theorem Fair.reads {accountsPerRun rowsPerAccount : Nat} {i : RunInput} {d : Database}
    (h : i.Fair accountsPerRun rowsPerAccount d) (hr : 1 ≤ rowsPerAccount) : i.Reads d :=
  ⟨h.rows.symm ▸ hr, h.scan⟩

/-- A run whose limits cover every account and every ledger. -/
structure Covers (i : RunInput) (d : Database) : Prop where
  accounts : d.customerAccount.rows.length ≤ i.params.accountsPerRun
  rows : d.customerAccountLedger.rows.length ≤ i.params.rowsPerAccount
  positive : 1 ≤ i.params.rowsPerAccount
  scan : i.scan.Perm d.customerAccount.rows
  stale : AllStale i.params d

end RunInput

/-- Nothing is left of any account. -/
def Finished (d : Database) : Prop :=
  ∀ x ∈ d.customerAccount.rows, ¬ (outcome d x.id).Unfinished (d.ledgerOf x.id)

/-- What an account's verification comes to. -/
def comesTo (d : Database) (a : UUID) : Option Outcome := (outcome d a).eventual (d.ledgerOf a)

def left (d : Database) : Nat :=
  (d.customerAccount.rows.map fun x => (outcome d x.id).pending (d.ledgerOf x.id)).sum

section
variable {i : RunInput} {d d' : Database}

theorem finalSelect_eq_nil_iff {p : BatchParams} {scan : List CustomerAccount}
    (hscan : scan.Perm d.customerAccount.rows) : finalSelect d p scan = [] ↔ picked d p scan = [] := by
  rw [finalSelect_eq d p (Database.accountIds_nodup hscan), List.map_eq_nil_iff, picked,
    List.map_eq_nil_iff]

theorem finalSelect_of_finished (hscan : i.scan.Perm d.customerAccount.rows) (h : Finished d) :
    finalSelect d i.params i.scan = [] := by
  refine (finalSelect_eq_nil_iff hscan).mpr (List.eq_nil_iff_forall_not_mem.mpr fun a ha => ?_)
  obtain ⟨hu, x, hx, rfl⟩ := picked_unfinished ha
  exact h x (hscan.mem_iff.mp hx) hu

theorem nextBatch_of_finished (hscan : i.scan.Perm d.customerAccount.rows) (hstale : AllStale i.params d)
    (h : Finished d) : nextBatch d i.params i.scan = some [] := by
  rw [hstale.nextBatch, finalSelect_of_finished hscan h]

theorem finished_of_nextBatch (hscan : i.scan.Perm d.customerAccount.rows)
    (hstale : AllStale i.params d) (hp : 1 ≤ i.params.accountsPerRun)
    (h : nextBatch d i.params i.scan = some []) : Finished d := by
  obtain ⟨_, hnil⟩ := nextBatch_some h
  intro x hx hu
  exact picked_ne_nil hstale (hscan.mem_iff.mpr hx) hu hp ((finalSelect_eq_nil_iff hscan).mp hnil.symm)

theorem Advanced.comesTo (h : Advanced i d d') (hr : 1 ≤ i.params.rowsPerAccount) (a : UUID) :
    comesTo d' a = Verification.comesTo d a := by
  rw [Verification.comesTo, Verification.comesTo, Database.ledgerOf_congr h.untouched.ledger]
  by_cases ha : a ∈ picked d i.params i.scan
  · exact Outcome.eventual_advance (ledgerOf_distinct d a) (picked_unfinished ha).1
      (by rw [BatchParams.windowRows]; omega) (h.advances a ha)
  · rw [h.others a ha]

/-- **What an account comes to never changes**, whatever runs do and whether they
raise. -/
theorem rerun_comesTo (hscan : i.scan.Perm d.customerAccount.rows) (hr : 1 ≤ i.params.rowsPerAccount) :
    Untouched d (i.rerun d) ∧ ∀ a, comesTo (i.rerun d) a = comesTo d a := by
  rcases run_cases hscan with ⟨_, hnone⟩ | ⟨d', hd', h⟩
  · rw [RunInput.rerun, hnone]
    exact ⟨⟨rfl, rfl, rfl, rfl⟩, fun _ => rfl⟩
  · rw [RunInput.rerun, hd']
    exact ⟨h.untouched, h.comesTo hr⟩

/-- Where every checkpoint is stale, a run raises only over an account that comes to
nothing. -/
theorem run_succeeds (hscan : i.scan.Perm d.customerAccount.rows) (hstale : AllStale i.params d)
    (hr : 1 ≤ i.params.rowsPerAccount) (h : ∀ x ∈ d.customerAccount.rows, comesTo d x.id ≠ none) :
    ∃ d', i.verify d = some d' ∧ Advanced i d d' := by
  rcases run_cases hscan with ⟨hraises | ⟨a, ha, hnone⟩, _⟩ | hsome
  · rw [(nextBatch_some (hstale.nextBatch i.scan)).1] at hraises
    cases hraises
  · obtain ⟨hu, x, hx, rfl⟩ := picked_unfinished ha
    exact absurd (Outcome.advance_none (ledgerOf_distinct d x.id) hu
      (by rw [BatchParams.windowRows]; omega) hnone) (h x (hscan.mem_iff.mp hx))
  · exact hsome

/-- A run that picks somebody leaves less to do. -/
theorem Advanced.left_lt (h : Advanced i d d') (hscan : i.scan.Perm d.customerAccount.rows)
    (hr : 1 ≤ i.params.rowsPerAccount) (hne : picked d i.params i.scan ≠ []) : left d' < left d := by
  have hw : 2 ≤ i.params.windowRows := by rw [BatchParams.windowRows]; omega
  have hlt : ∀ a ∈ picked d i.params i.scan,
      (outcome d' a).pending (d.ledgerOf a) < (outcome d a).pending (d.ledgerOf a) := fun a ha =>
    Outcome.pending_advance (ledgerOf_distinct d a) (picked_unfinished ha).1 hw (h.advances a ha)
  rw [left, left, h.untouched.account]
  simp only [Database.ledgerOf_congr h.untouched.ledger]
  refine List.sum_lt_sum _ _ (fun x _ => ?_) ?_
  · by_cases hx : x.id ∈ picked d i.params i.scan
    · exact le_of_lt (hlt _ hx)
    · rw [h.others _ hx]
  · obtain ⟨a, ha⟩ := List.exists_mem_of_ne_nil _ hne
    obtain ⟨_, x, hx, rfl⟩ := picked_unfinished ha
    exact ⟨x, hscan.mem_iff.mp hx, hlt _ ha⟩

end

/-- The state after the first `n` runs. -/
def after (inputs : Nat → RunInput) (d : Database) : Nat → Database
  | 0 => d
  | n + 1 => (inputs n).rerun (after inputs d n)

/-- Every account's expected balance, at the first break of its whole walk, fits
the column it is recorded in. -/
def Recordable (d : Database) : Prop :=
  ∀ x ∈ d.customerAccount.rows, ∀ previous row kind,
    walk check position (outcome d x.id).start ((outcome d x.id).rest (d.ledgerOf x.id)) =
      .broken previous row kind →
    kind = .balance ∨ kind = .gapBalance →
    (previous.balance.cents + row.amount.cents).natAbs < 10 ^ 16

theorem check_balance_lt {p : Position} {r : CustomerAccountLedger} {kind : LedgerDiscrepancyKind}
    (h : check p r = some kind) (hk : kind = .balance ∨ kind = .gapBalance) : p.no < r.no := by
  unfold check flag at h
  split_ifs at h with h₁ h₂ h₃ h₄
  · cases h
    exact absurd hk (by decide)
  · exact h₂.1
  · cases h
    exact absurd hk (by decide)
  · exact h₄.1

theorem incidentOf_eq_none {previous : Position} {row : CustomerAccountLedger}
    {kind : LedgerDiscrepancyKind} : incidentOf previous row kind = none ↔
      (kind = .balance ∨ kind = .gapBalance) ∧
        10 ^ 16 ≤ (previous.balance.cents + row.amount.cents).natAbs := by
  have hanchor := previous.balance.inRange
  cases kind <;>
    simp [incidentOf, expectedBalance, Numeric.add_exact, Numeric.store_none]
  omega

/-- An account comes to nothing when its break cannot be recorded. -/
theorem comesTo_eq_none {d : Database} {a : UUID} (hopen : d.findOpenDiscrepancy a = none) :
    comesTo d a = none ↔ ∃ previous row kind,
      walk check position (outcome d a).start ((outcome d a).rest (d.ledgerOf a)) =
        .broken previous row kind ∧ (kind = .balance ∨ kind = .gapBalance) ∧
      10 ^ 16 ≤ (previous.balance.cents + row.amount.cents).natAbs := by
  have hincident : (outcome d a).incident = none := congrArg (Option.map _) hopen
  constructor
  · intro h
    rw [comesTo, Outcome.eventual] at h
    split at h
    · cases hpass : walk check position (outcome d a).start ((outcome d a).rest (d.ledgerOf a)) with
      | clean last =>
        rw [hpass] at h
        cases h
      | broken previous row kind =>
        rw [hpass, Outcome.settle, Option.map_eq_none_iff, incidentOf_eq_none] at h
        exact ⟨previous, row, kind, rfl, h⟩
    · cases h
  · rintro ⟨previous, row, kind, hpass, hk, hbig⟩
    have hunfinished : (outcome d a).Unfinished (d.ledgerOf a) := by
      obtain ⟨pre, post, hrest, hpre, hcheck⟩ := walk_broken hpass
      have hmem : ∀ q ∈ (outcome d a).rest (d.ledgerOf a),
          q ∈ d.ledgerOf a ∧ (outcome d a).start.no ≤ q.no := fun q hq => Outcome.mem_rest.mp hq
      have hlt := check_balance_lt hcheck hk
      have hprev : (outcome d a).start.no ≤ previous.no := by
        rw [walk_clean_last hpre]
        cases hl : pre.getLast? with
        | none => exact le_rfl
        | some q => exact (hmem q (hrest ▸ List.mem_append_left _ (List.mem_of_getLast? hl))).2
      exact ⟨hincident, row, (hmem row (hrest ▸ by simp)).1, by omega⟩
    rw [comesTo, Outcome.eventual, if_pos hunfinished, hpass, Outcome.settle,
      incidentOf_eq_none.mpr ⟨hk, hbig⟩]
    rfl

theorem recordable_iff {d : Database} (hopen : ∀ a, d.findOpenDiscrepancy a = none) :
    Recordable d ↔ ∀ x ∈ d.customerAccount.rows, comesTo d x.id ≠ none := by
  constructor
  · intro h x hx hnone
    obtain ⟨previous, row, kind, hpass, hk, hbig⟩ := (comesTo_eq_none (hopen _)).mp hnone
    exact absurd (h x hx previous row kind hpass hk) (Nat.not_lt.mpr hbig)
  · intro h x hx previous row kind hpass hk
    by_contra hbig
    exact h x hx ((comesTo_eq_none (hopen _)).mpr ⟨previous, row, kind, hpass, hk, Nat.not_lt.mp hbig⟩)

section
variable {accountsPerRun rowsPerAccount : Nat} {inputs : Nat → RunInput} {d : Database}

/-- The next batch is empty, whatever the order of the account table and the time. -/
def Quiet (accountsPerRun rowsPerAccount : Nat) (d : Database) : Prop :=
  ∀ i : RunInput, i.Fair accountsPerRun rowsPerAccount d → nextBatch d i.params i.scan = some []

/-- Repeated runs become quiet, and a quiet state has for every account what one
run over everything records. -/
def Converges (accountsPerRun rowsPerAccount : Nat) (d : Database) : Prop :=
  ∀ inputs : Nat → RunInput, (∀ n, (inputs n).Fair accountsPerRun rowsPerAccount (after inputs d n)) →
    (∃ n, Quiet accountsPerRun rowsPerAccount (after inputs d n)) ∧
    ∀ n, Quiet accountsPerRun rowsPerAccount (after inputs d n) →
      ∀ full : RunInput, full.Covers d → ∃ d', full.verify d = some d' ∧
        ∀ x ∈ d.customerAccount.rows, outcome (after inputs d n) x.id = outcome d' x.id

/-- What stays true run after run. -/
theorem after_comesTo (hreads : ∀ n, (inputs n).Reads (after inputs d n)) (n : Nat) :
    Untouched d (after inputs d n) ∧ ∀ a, comesTo (after inputs d n) a = comesTo d a := by
  induction n with
  | zero => exact ⟨⟨rfl, rfl, rfl, rfl⟩, fun _ => rfl⟩
  | succ n ih =>
    obtain ⟨hu, hc⟩ := ih
    obtain ⟨hu', hc'⟩ := rerun_comesTo (hreads n).scan (hreads n).rows
    exact ⟨⟨hu'.customer.trans hu.customer, hu'.account.trans hu.account,
      hu'.history.trans hu.history, hu'.ledger.trans hu.ledger⟩, fun a => (hc' a).trans (hc a)⟩

/-- Where every break can be recorded, some run finds nothing left. -/
theorem exists_finished (ha : 1 ≤ accountsPerRun) (hr : 1 ≤ rowsPerAccount)
    (hfair : ∀ n, (inputs n).Fair accountsPerRun rowsPerAccount (after inputs d n))
    (h : ∀ x ∈ d.customerAccount.rows, comesTo d x.id ≠ none) : ∃ n, Finished (after inputs d n) := by
  by_contra hnever
  rw [not_exists] at hnever
  -- otherwise every run leaves less to do than the one before
  have hdescends : ∀ n, left (after inputs d (n + 1)) < left (after inputs d n) := by
    intro n
    obtain ⟨hu, hc⟩ := after_comesTo (fun n => (hfair n).reads hr) n
    have hrows : 1 ≤ (inputs n).params.rowsPerAccount := (hfair n).rows ▸ hr
    have haccounts : 1 ≤ (inputs n).params.accountsPerRun := (hfair n).accounts ▸ ha
    obtain ⟨d', hd', hadvanced⟩ := run_succeeds (hfair n).scan (hfair n).stale hrows fun x hx => by
      rw [hc]
      exact h x (hu.account ▸ hx)
    have hafter : after inputs d (n + 1) = d' := by
      rw [after, RunInput.rerun, hd']
      rfl
    rw [hafter]
    refine hadvanced.left_lt (hfair n).scan hrows fun hnil => hnever n ?_
    intro x hx hu
    exact picked_ne_nil (hfair n).stale ((hfair n).scan.mem_iff.mpr hx) hu haccounts hnil
  have hbound : ∀ n, left (after inputs d n) + n ≤ left d := by
    intro n
    induction n with
    | zero => exact le_rfl
    | succ n ih =>
      have := hdescends n
      omega
  have := hbound (left d + 1)
  omega

/-- One run over everything, where every break can be recorded. -/
theorem full_run {full : RunInput} (hfull : full.Covers d)
    (h : ∀ x ∈ d.customerAccount.rows, comesTo d x.id ≠ none) :
    ∃ d', full.verify d = some d' ∧
      ∀ x ∈ d.customerAccount.rows, comesTo d x.id = some (outcome d' x.id) := by
  obtain ⟨d', hd', hadvanced⟩ := run_succeeds hfull.scan hfull.stale hfull.positive h
  refine ⟨d', hd', fun x hx => ?_⟩
  have hledger := Database.ledgerOf_congr hadvanced.untouched.ledger x.id
  have hlen : (d.ledgerOf x.id).length ≤ full.params.windowRows :=
    (List.length_filter_le _ _).trans (hfull.rows.trans (Nat.le_succ _))
  rw [← hadvanced.comesTo hfull.positive, comesTo, hledger]
  refine Outcome.eventual_of_finished ?_
  by_cases hu : (outcome d x.id).Unfinished (d.ledgerOf x.id)
  · have hmem := mem_picked_of_covers hfull.stale (hfull.scan.mem_iff.mpr hx) hu
      (hfull.scan.length_eq ▸ hfull.accounts)
    have hw : 2 ≤ full.params.windowRows := Nat.succ_le_succ hfull.positive
    exact Outcome.finished_of_covers (ledgerOf_distinct d x.id) hu hw hlen (hadvanced.advances _ hmem)
  · rw [hadvanced.others _ fun hmem => hu (picked_unfinished hmem).1]
    exact hu

theorem converges_of_recordable (ha : 1 ≤ accountsPerRun) (hr : 1 ≤ rowsPerAccount)
    (h : ∀ x ∈ d.customerAccount.rows, comesTo d x.id ≠ none) :
    Converges accountsPerRun rowsPerAccount d := by
  intro inputs hfair
  refine ⟨?_, fun n hquiet full hfull => ?_⟩
  · obtain ⟨n, hn⟩ := exists_finished ha hr hfair h
    exact ⟨n, fun i hi => nextBatch_of_finished hi.scan hi.stale hn⟩
  · obtain ⟨d', hd', hcomes⟩ := full_run hfull h
    obtain ⟨hu, hc⟩ := after_comesTo (fun n => (hfair n).reads hr) n
    have hfinished := finished_of_nextBatch (hfair n).scan (hfair n).stale
      ((hfair n).accounts ▸ ha) (hquiet _ (hfair n))
    refine ⟨d', hd', fun x hx => ?_⟩
    have hx' : x ∈ (after inputs d n).customerAccount.rows := hu.account.symm ▸ hx
    have hnow := Outcome.eventual_of_finished (hfinished x hx')
    have := (hc x.id).symm.trans hnow
    exact Option.some.inj (this.symm.trans (hcomes x hx))

/-! ### The other direction -/

/-- Inputs under which every checkpoint is stale at every run. -/
theorem exists_fair (accountsPerRun rowsPerAccount : Nat) (d : Database) :
    ∃ i : RunInput, ∀ n, i.Fair accountsPerRun rowsPerAccount (after (fun _ => i) d n) := by
  obtain ⟨m, hm⟩ : ∃ m, ∀ c ∈ d.customerAccountLedgerVerified.rows, c.verifiedAt ≤ m := by
    obtain ⟨m, hm⟩ := (d.customerAccountLedgerVerified.rows.map (·.verifiedAt)).toFinset.exists_le
    exact ⟨m, fun c hc => hm _ (by simpa using ⟨c, hc, rfl⟩)⟩
  let i : RunInput := ⟨⟨accountsPerRun, rowsPerAccount, 0, m + 1⟩, d.customerAccount.rows, fun _ => m⟩
  have hafter : ∀ n, (after (fun _ => i) d n).customerAccount = d.customerAccount ∧
      ∀ c ∈ (after (fun _ => i) d n).customerAccountLedgerVerified.rows, c.verifiedAt ≤ m := by
    intro n
    induction n with
    | zero => exact ⟨rfl, hm⟩
    | succ n ih =>
      obtain ⟨haccount, htimes⟩ := ih
      have hscan : i.scan.Perm (after (fun _ => i) d n).customerAccount.rows := by rw [haccount]
      rw [after, RunInput.rerun]
      rcases run_cases hscan with ⟨_, hnone⟩ | ⟨d', hd', h⟩
      · rw [hnone]
        exact ⟨haccount, htimes⟩
      · rw [hd']
        refine ⟨h.untouched.account.trans haccount, fun c hc => ?_⟩
        rcases h.times c hc with hc | ⟨_, ht⟩
        · exact htimes c hc
        · exact le_of_eq ht
  refine ⟨i, fun n => ⟨rfl, rfl, ?_, fun c hc => ?_⟩⟩
  · rw [(hafter n).1]
  · show c.verifiedAt < m + 1 - 0
    rw [sub_zero]
    exact Int.lt_add_one_of_le ((hafter n).2 c hc)

/-- An account that comes to nothing is picked, and raises, for ever. -/
theorem not_converges (ha : 1 ≤ accountsPerRun) (hr : 1 ≤ rowsPerAccount) {x : CustomerAccount}
    (hx : x ∈ d.customerAccount.rows) (h : comesTo d x.id = none) :
    ¬ Converges accountsPerRun rowsPerAccount d := by
  intro hconverges
  obtain ⟨i, hfair⟩ := exists_fair accountsPerRun rowsPerAccount d
  obtain ⟨⟨n, hquiet⟩, _⟩ := hconverges (fun _ => i) hfair
  obtain ⟨hu, hc⟩ := after_comesTo (fun n => (hfair n).reads hr) n
  have hfinished := finished_of_nextBatch (hfair n).scan (hfair n).stale
    ((hfair n).accounts ▸ ha) (hquiet i (hfair n))
  have hnow := Outcome.eventual_of_finished (hfinished x (hu.account.symm ▸ hx))
  have := hc x.id
  rw [h, comesTo, hnow] at this
  cases this

/-- Runs over everything that meet an account that comes to nothing change nothing. -/
theorem exists_stuck {x : CustomerAccount} (hx : x ∈ d.customerAccount.rows) (h : comesTo d x.id = none) :
    ∃ accountsPerRun rowsPerAccount inputs, 1 ≤ accountsPerRun ∧ 1 ≤ rowsPerAccount ∧
      (∀ n, (inputs n).Fair accountsPerRun rowsPerAccount (after inputs d n)) ∧
      ∀ n, after inputs d n = d := by
  obtain ⟨i, hfair⟩ := exists_fair d.customerAccount.rows.length ((d.ledgerOf x.id).length + 1) d
  refine ⟨_, _, fun _ => i, List.length_pos_of_mem hx, Nat.succ_pos _, hfair, fun n => ?_⟩
  have hfair : i.Fair d.customerAccount.rows.length ((d.ledgerOf x.id).length + 1) d := hfair 0
  have hunfinished : (outcome d x.id).Unfinished (d.ledgerOf x.id) := by
    by_contra hfinished
    rw [comesTo, Outcome.eventual_of_finished hfinished] at h
    cases h
  have hpicked := mem_picked_of_covers hfair.stale (hfair.scan.mem_iff.mpr hx) hunfinished
    (by rw [hfair.scan.length_eq, hfair.accounts])
  have hraises : i.verify d = none := by
    rcases run_cases hfair.scan with ⟨_, hnone⟩ | ⟨d', _, hadvanced⟩
    · exact hnone
    · have hadvance := hadvanced.advances _ hpicked
      rw [Outcome.advance_covers hunfinished (by rw [BatchParams.windowRows, hfair.rows]; omega)]
        at hadvance
      exact absurd (hadvance.symm.trans h) (Option.some_ne_none _)
  induction n with
  | zero => rfl
  | succ n ih =>
    rw [after, ih, RunInput.rerun, hraises]
    rfl

end

/-- **Incremental verification converges to the full one exactly where every first
break can be recorded.** -/
theorem incremental_verification (d : Database) (accountsPerRun rowsPerAccount : Nat)
    (ha : 1 ≤ accountsPerRun) (hr : 1 ≤ rowsPerAccount)
    (hopen : ∀ a, d.findOpenDiscrepancy a = none) :
    Converges accountsPerRun rowsPerAccount d ↔ Recordable d := by
  rw [recordable_iff hopen]
  exact ⟨fun h x hx hnone => not_converges ha hr hx hnone h, converges_of_recordable ha hr⟩

/-- Two amounts of almost `10 ^ 14`, and a second balance that does not add up. -/
def overflowing : Database :=
  sampleLedger [sampleRow 1 ⟨9999999999999999, by decide⟩ ⟨9999999999999999, by decide⟩ 1,
    sampleRow 2 ⟨9999999999999999, by decide⟩ .zero 2] (by decide)

theorem overflowing_never_quiet : ¬ Converges 100 1000 overflowing :=
  not_converges (by decide) (by decide) (List.mem_singleton.mpr rfl) (by decide)

/-- Row 3 is missing. -/
def gapped : Database :=
  sampleLedger [sampleRow 1 .zero .zero 1, sampleRow 2 ten ten 2, sampleRow 4 five fifteen 4]
    (by decide)

theorem gapped_converges : Converges 1 1 gapped := by
  have hopen : ∀ a, gapped.findOpenDiscrepancy a = none := fun _ => rfl
  have hcomes : ∀ x ∈ gapped.customerAccount.rows, comesTo gapped x.id ≠ none := by decide
  exact (incremental_verification gapped 1 1 (by decide) (by decide) hopen).mpr
    ((recordable_iff hopen).mpr hcomes)

end Statement.Verification
