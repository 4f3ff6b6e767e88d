import Statement.Verification.Attested
import Statement.Verification.Recording
import Statement.Wiring.Quarantine

/-! What the checkpoints say, whatever was verified, resolved and appended.

Only an accepted incident moves a checkpoint past rows that were not walked. So an
account's checkpoints stand on as many bases as it has had incidents accepted, and
the origin; from each base the rows up to the next ones are a journal. -/
namespace Statement.Wiring
open Domain Foundation Verification

/-- Where an account was checkpointed. -/
def checkpointsOf (d : Database) (a : UUID) : List Position :=
  (d.customerAccountLedgerVerified.rows.filter (·.accountId = a)).map fun c => ⟨c.throughNo, c.balance⟩

def resolvedOf (d : Database) (a : UUID) : List CustomerAccountLedgerDiscrepancy :=
  (incidentsOf d a).filter (·.resolvedAt ≠ none)

/-- The checkpoints of an account stand on the bases, which are the origin and, for
every incident accepted, a stored row. -/
structure Covered (bases : List Position) (a : UUID) (d : Database) : Prop where
  head : bases.head? = some origin
  sorted : bases.Pairwise fun b c => b.no < c.no
  length : bases.length = (resolvedOf d a).length + 1
  stored : ∀ b ∈ bases.tail, b ∈ checkpointsOf d a ∧ ∃ r ∈ d.ledgerOf a, position r = b
  checkpoints : ∀ p ∈ checkpointsOf d a, ∃ b ∈ bases, Stands b p (d.ledgerOf a)
  current : ∃ b, bases.getLast? = some b ∧ Stands b (outcome d a).start (d.ledgerOf a)
  named : (outcome d a).Named (d.ledgerOf a)

/-! ### What a run of the verifier adds -/

theorem mem_checkpointsOf {d : Database} {a : UUID} {p : Position} : p ∈ checkpointsOf d a ↔
    ∃ c ∈ d.customerAccountLedgerVerified.rows, c.accountId = a ∧ (⟨c.throughNo, c.balance⟩ : Position) = p := by
  simp [checkpointsOf, and_assoc]

/-- A report that a checkpoint is the last good position of. -/
def MadeBy (v : CustomerAccountVerification) (c : CustomerAccountLedgerVerified) : Prop :=
  c.accountId = v.accountId ∧ c.throughNo = v.lastGoodNo ∧ c.balance = v.lastGoodBalance

/-- Checkpoints were added, each of them `made`. -/
def Adds (made : CustomerAccountLedgerVerified → Prop) (d d' : Database) : Prop :=
  ∃ added, d'.customerAccountLedgerVerified.rows = d.customerAccountLedgerVerified.rows ++ added ∧
    ∀ c ∈ added, made c

section
variable {made : CustomerAccountLedgerVerified → Prop} {d d' d'' : Database}

theorem Adds.refl (d : Database) : Adds made d d := ⟨[], (List.append_nil _).symm, by simp⟩

theorem Adds.trans (h : Adds made d d') (h' : Adds made d' d'') : Adds made d d'' := by
  obtain ⟨added, hrows, hmade⟩ := h
  obtain ⟨added', hrows', hmade'⟩ := h'
  refine ⟨added ++ added', by rw [hrows', hrows, List.append_assoc], fun c hc => ?_⟩
  exact (List.mem_append.mp hc).elim (hmade c) (hmade' c)

theorem Adds.mem (h : Adds made d d') {c : CustomerAccountLedgerVerified}
    (hc : c ∈ d'.customerAccountLedgerVerified.rows) :
    c ∈ d.customerAccountLedgerVerified.rows ∨ made c := by
  obtain ⟨added, hrows, hmade⟩ := h
  rw [hrows] at hc
  exact (List.mem_append.mp hc).imp_right (hmade c)

theorem Adds.keeps (h : Adds made d d') {a : UUID} {p : Position} (hp : p ∈ checkpointsOf d a) :
    p ∈ checkpointsOf d' a := by
  obtain ⟨added, hrows, _⟩ := h
  obtain ⟨c, hc, hcp⟩ := mem_checkpointsOf.mp hp
  exact mem_checkpointsOf.mpr ⟨c, hrows ▸ List.mem_append_left added hc, hcp⟩

theorem addCheckpoint_adds {a : UUID} {n : Int} {balance : Numeric} {now : Timestamp}
    (h : made ⟨a, n, balance, now⟩) (d : Database) : Adds made d (d.addCheckpoint a n balance now) := by
  rcases Table.insertOrIgnore_cases d.customerAccountLedgerVerified ⟨a, n, balance, now⟩ with
    ⟨_, hsame⟩ | ⟨_, hrows⟩
  · exact ⟨[], (congrArg Table.rows hsame).trans (List.append_nil _).symm, by simp⟩
  · exact ⟨_, hrows, fun c hc => List.mem_singleton.mp hc ▸ h⟩

theorem foldlM_adds {α : Type} {f : Database → α → Option Database} {l : List α}
    (hf : ∀ x ∈ l, ∀ d d', f d x = some d' → Adds made d d') (h : l.foldlM f d = some d') :
    Adds made d d' := by
  induction l generalizing d with
  | nil =>
    cases h
    exact .refl _
  | cons x l ih =>
    rw [List.foldlM_cons] at h
    obtain ⟨d₁, h₁, hrest⟩ := Option.bind_eq_some_iff.mp h
    exact (hf x List.mem_cons_self d d₁ h₁).trans (ih (fun y hy => hf y (List.mem_cons_of_mem x hy)) hrest)

theorem record_adds {clock : Write → Timestamp} {v : CustomerAccountVerification}
    (h : record clock d v = some d') : Adds (MadeBy v) d d' := by
  refine foldlM_adds (fun w hw d₁ d₂ happly => ?_) h
  rcases writes_account hw with rfl | rfl
  · simp only [Write.apply, recordDiscrepancy] at happly
    split at happly
    · simp only [Option.bind_eq_bind, Option.bind_eq_some_iff, Option.some.injEq] at happly
      obtain ⟨_, _, rfl⟩ := happly
      exact .refl _
    · cases happly
  · cases happly
    exact addCheckpoint_adds ⟨rfl, rfl, rfl⟩ d₁

theorem Adds.mono {made' : CustomerAccountLedgerVerified → Prop} (h : Adds made d d')
    (himp : ∀ c, made c → made' c) : Adds made' d d' := by
  obtain ⟨added, hrows, hmade⟩ := h
  exact ⟨added, hrows, fun c hc => himp c (hmade c hc)⟩

theorem rerun_adds (i : RunInput) (d : Database) :
    Adds (fun c => ∃ v ∈ finalSelect d i.params i.scan, MadeBy v c) d (i.rerun d) := by
  rw [RunInput.rerun]
  cases hrun : i.verify d with
  | none => exact .refl _
  | some d' =>
    exact foldlM_adds (fun v hv d₁ d₂ h => (record_adds h).mono fun c hc => ⟨v, hv, hc⟩)
      (RunInput.verify_some hrun)

end

/-- A run's new checkpoints are where its walks have got. -/
theorem rerun_checkpoints {i : RunInput} {d : Database} (hscan : i.scan.Perm d.customerAccount.rows)
    {a : UUID} {p : Position} (hp : p ∈ checkpointsOf (i.rerun d) a) :
    p ∈ checkpointsOf d a ∨
      p = (walk check position (outcome d a).start
        (((outcome d a).rest (d.ledgerOf a)).take i.params.windowRows)).reached := by
  obtain ⟨c, hc, rfl, rfl⟩ := mem_checkpointsOf.mp hp
  rcases (rerun_adds i d).mem hc with hc | ⟨v, hv, haccount, hno, hbalance⟩
  · exact .inl (mem_checkpointsOf.mpr ⟨c, hc, rfl, rfl⟩)
  · obtain ⟨t, ht, rfl⟩ := mem_finalSelect (Database.accountIds_nodup hscan) hv
    have hstart := target_picked_start ht
    rw [report_accountId] at haccount
    rw [haccount, hno, hbalance, report_reached, hstart, window_eq hstart]
    exact .inr rfl

/-! ### What an accepted incident adds -/

theorem checkpoint_mem {d : Database} {a : UUID} {p : Position} (h : (outcome d a).checkpoint = some p) :
    p ∈ checkpointsOf d a := by
  obtain ⟨c, hc, hcp⟩ := Option.map_eq_some_iff.mp h
  obtain ⟨hmem, _⟩ := head_orderBy_le hc
  exact List.mem_map.mpr ⟨c, hmem, hcp⟩

section
variable {d : Database} {r : ResolveRequest} {i : CustomerAccountLedgerDiscrepancy} {throughNo : Int}
  {balance : Numeric}

/-- Only the incident itself is changed, and it was not resolved before. -/
theorem resolvedOf_accepted (hi : d.findOpenDiscrepancy r.accountId = some i) :
    (resolvedOf (r.accepted i throughNo balance d) r.accountId).length =
      (resolvedOf d r.accountId).length + 1 := by
  obtain ⟨hmem, haccount, hopen⟩ := ResolveRequest.findOpen_mem hi
  obtain ⟨pre, post, hrows⟩ := List.append_of_mem hmem
  have hdistinct := d.customerAccountLedgerDiscrepancy.distinct
  rw [hrows] at hdistinct
  obtain ⟨_, hpost, hpre⟩ := List.pairwise_append.mp hdistinct
  have hfixed : ∀ j ∈ pre ++ post, Database.resolveRow i.discrepancyId r.sub r.resolvedAt j = j := by
    intro j hj
    refine if_neg fun hid => ?_
    rcases List.mem_append.mp hj with hj | hj
    · exact hpre j hj i List.mem_cons_self (.inl hid)
    · exact (List.pairwise_cons.mp hpost).1 j hj (.inl hid.symm)
  have hresolved : Database.resolveRow i.discrepancyId r.sub r.resolvedAt i =
      { i with resolvedAt := some r.resolvedAt, resolvedBy := some r.sub } := if_pos rfl
  have hmap : (r.accepted i throughNo balance d).customerAccountLedgerDiscrepancy.rows =
      pre ++ { i with resolvedAt := some r.resolvedAt, resolvedBy := some r.sub } :: post := by
    show d.customerAccountLedgerDiscrepancy.rows.map _ = _
    rw [hrows, List.map_append, List.map_cons, hresolved]
    congr 1
    · exact (List.map_congr_left fun j hj => hfixed j (List.mem_append_left _ hj)).trans (List.map_id' pre)
    · congr 1
      exact (List.map_congr_left fun j hj => hfixed j (List.mem_append_right _ hj)).trans (List.map_id' post)
  simp only [resolvedOf, incidentsOf, hmap, hrows, List.filter_append, List.filter_cons, haccount, hopen,
    decide_true, if_true, ne_eq, not_true, reduceCtorEq, not_false_eq_true, decide_false, Bool.false_eq_true,
    if_false, List.length_append, List.length_cons, Nat.add_assoc]

/-- A request writes of its own account only. -/
theorem respond_sameRows (r : ResolveRequest) (d : Database) {a : UUID} (ha : r.accountId ≠ a) :
    SameRows a d (r.respond testClient d).committed := by
  cases hi : d.findOpenDiscrepancy r.accountId with
  | none =>
    rw [ResolveRequest.respond_none hi]
    exact ⟨rfl, rfl⟩
  | some i =>
    rcases ResolveRequest.respond_cases hi with ⟨throughNo, balance, _, hrespond⟩ | ⟨⟨f, hf⟩, _⟩
    · rw [hrespond]
      exact accepted_sameRows hi (Ne.symm ha)
    · rw [hf]
      exact ⟨rfl, rfl⟩

/-- A request writes the verifier's tables only. -/
theorem respond_untouched (r : ResolveRequest) (d : Database) :
    Untouched d (r.respond testClient d).committed := by
  cases hi : d.findOpenDiscrepancy r.accountId with
  | none =>
    rw [ResolveRequest.respond_none hi]
    exact ⟨rfl, rfl, rfl, rfl⟩
  | some i =>
    rcases ResolveRequest.respond_cases hi with ⟨throughNo, balance, _, hrespond⟩ | ⟨⟨f, hf⟩, _⟩
    · rw [hrespond]
      exact ⟨rfl, rfl, rfl, rfl⟩
    · rw [hf]
      exact ⟨rfl, rfl, rfl, rfl⟩

end

/-! ### One step -/

namespace Covered
variable {bases : List Position} {a : UUID} {d d' : Database}

theorem start (h : Unverified d) (a : UUID) : Covered [origin] a d := by
  have houtcome : outcome d a = .fresh := by
    simp [outcome, Database.findOpenDiscrepancy, Database.findLatestCheckpoint, h.checkpoints, h.incidents,
      orderBy, Outcome.fresh]
  refine ⟨rfl, List.pairwise_singleton _ _, ?_, fun b hb => ?_, fun p hp => ?_, ⟨origin, rfl, ?_⟩, ?_⟩
  · rw [resolvedOf, incidentsOf, h.incidents]
    rfl
  · cases hb
  · rw [checkpointsOf, h.checkpoints] at hp
    cases hp
  · rw [houtcome]
    exact .inl rfl
  · rw [houtcome]
    exact Outcome.named_idle rfl

theorem origin_mem (h : Covered bases a d) : origin ∈ bases := List.mem_of_head? h.head

/-- No base is past the checkpoint. -/
theorem le_start (h : Covered bases a d) {b : Position} (hb : b ∈ bases) : b.no ≤ (outcome d a).start.no := by
  obtain ⟨last, hlast, hstands⟩ := h.current
  obtain ⟨init, rfl⟩ := List.getLast?_eq_some_iff.mp hlast
  have hle : b.no ≤ last.no := by
    rcases List.mem_append.mp hb with hb | hb
    · exact ((List.pairwise_append.mp h.sorted).2.2 b hb last (List.mem_singleton.mpr rfl)).le
    · exact List.mem_singleton.mp hb ▸ le_rfl
  rcases hstands with hstart | hattested
  · exact hstart ▸ hle
  · exact hle.trans hattested.no_lt.le

theorem verify (h : Covered bases a d) {run : RunInput} (hscan : run.scan.Perm d.customerAccount.rows) :
    Covered bases a (run.rerun d) := by
  have hl := ledgerOf_distinct d a
  have hwindow := (List.take_append_drop run.params.windowRows ((outcome d a).rest (d.ledgerOf a))).symm
  obtain ⟨last, hlast, hstands⟩ := h.current
  have hledger : (run.rerun d).ledgerOf a = d.ledgerOf a := by
    rcases run_cases hscan with ⟨_, hnone⟩ | ⟨d', hd', hadvanced⟩
    · rw [RunInput.rerun, hnone, Option.getD_none]
    · rw [RunInput.rerun, hd', Option.getD_some]
      exact Database.ledgerOf_congr hadvanced.untouched.ledger a
  have hopens := after_opens (fun _ => run) d 1
  obtain ⟨opened, hrows, hopened⟩ := hopens
  have hresolved : resolvedOf (run.rerun d) a = resolvedOf d a := by
    have hrows : (run.rerun d).customerAccountLedgerDiscrepancy.rows = _ := hrows
    have hnone : (opened.filter (·.accountId = a)).filter (·.resolvedAt ≠ none) = [] := by
      refine List.filter_eq_nil_iff.mpr fun i hi => ?_
      simp [hopened i (List.mem_filter.mp hi).1]
    rw [resolvedOf, incidentsOf, hrows, List.filter_append, List.filter_append, hnone, List.append_nil]
    rfl
  have houtcome : (outcome (run.rerun d) a).Named (d.ledgerOf a) ∧
      Stands last (outcome (run.rerun d) a).start (d.ledgerOf a) := by
    rcases run_cases hscan with ⟨_, hnone⟩ | ⟨d', hd', hadvanced⟩
    · rw [RunInput.rerun, hnone, Option.getD_none]
      exact ⟨h.named, hstands⟩
    · rw [RunInput.rerun, hd', Option.getD_some]
      by_cases ha : a ∈ picked d run.params run.scan
      · have hadvance := hadvanced.advances a ha
        rw [Outcome.advance] at hadvance
        exact ⟨(Outcome.settle_named hl hwindow hadvance).1, Outcome.settle_stands hl hwindow hadvance hstands⟩
      · rw [hadvanced.others a ha]
        exact ⟨h.named, hstands⟩
  have hadds := rerun_adds run d
  refine ⟨h.head, h.sorted, hresolved ▸ h.length, fun b hb => ?_, fun p hp => ?_, ⟨last, hlast, ?_⟩, ?_⟩
  · rw [hledger]
    exact (h.stored b hb).imp_left hadds.keeps
  · rw [hledger]
    rcases rerun_checkpoints hscan hp with hp | rfl
    · exact h.checkpoints p hp
    · obtain ⟨hsorted, hmem⟩ := Outcome.walked_sorted hl hwindow
      exact ⟨last, List.mem_of_getLast? hlast,
        hstands.walk hl (fun r hr => (hmem r hr).1) hsorted fun r hr => (hmem r hr).2⟩
  · rw [hledger]
    exact houtcome.2
  · rw [hledger]
    exact houtcome.1

/-- An accepted incident of the account: a new base, at a stored row. -/
theorem accept {r : ResolveRequest} (h : Covered bases r.accountId d) {i : CustomerAccountLedgerDiscrepancy}
    {throughNo : Int} {balance : Numeric} (hi : d.findOpenDiscrepancy r.accountId = some i)
    (hacceptable : r.Acceptable d i throughNo balance) :
    Covered (bases ++ [⟨throughNo, balance⟩]) r.accountId (r.accepted i throughNo balance d) := by
  have houtcome := @ResolveRequest.outcome_accepted _ _ _ hi _ balance hacceptable.past r.accountId
  rw [if_pos rfl] at houtcome
  obtain ⟨hmem, haccount, hopen⟩ := ResolveRequest.findOpen_mem hi
  have hledger : (r.accepted i throughNo balance d).ledgerOf r.accountId = d.ledgerOf r.accountId := rfl
  have hpast : (outcome d r.accountId).start.no < throughNo := by
    rw [← ResolveRequest.anchorNo_eq]
    exact hacceptable.past
  have hadds : Adds (· = ⟨r.accountId, throughNo, balance, r.verifiedAt⟩) d
      (r.accepted i throughNo balance d) :=
    @addCheckpoint_adds (· = _) _ _ _ _ rfl d
  have hne : bases ≠ [] := List.ne_nil_of_mem h.origin_mem
  refine ⟨?_, ?_, ?_, fun b hb => ?_, fun p hp => ?_, ⟨_, List.getLast?_concat, ?_⟩, ?_⟩
  · rw [List.head?_append_of_ne_nil _ hne]
    exact h.head
  · refine List.pairwise_append.mpr ⟨h.sorted, List.pairwise_singleton _ _, fun b hb c hc => ?_⟩
    rw [List.mem_singleton.mp hc]
    exact (h.le_start hb).trans_lt hpast
  · rw [List.length_append, h.length, resolvedOf_accepted hi]
    rfl
  · rw [hledger]
    rw [List.tail_append_of_ne_nil hne] at hb
    rcases List.mem_append.mp hb with hb | hb
    · exact (h.stored b hb).imp_left hadds.keeps
    · rw [List.mem_singleton.mp hb]
      obtain ⟨row, hfind, hbalance⟩ := Option.map_eq_some_iff.mp hacceptable.stored
      have hno : row.no = throughNo := by simpa using List.find?_some hfind
      refine ⟨checkpoint_mem (congrArg Outcome.checkpoint houtcome), row, List.mem_of_find?_eq_some hfind, ?_⟩
      rw [position, hno, hbalance]
  · rw [hledger]
    obtain ⟨c, hc, hca, rfl⟩ := mem_checkpointsOf.mp hp
    rcases hadds.mem hc with hc | hnew
    · obtain ⟨b, hb, hstands⟩ := h.checkpoints _ (mem_checkpointsOf.mpr ⟨c, hc, hca, rfl⟩)
      exact ⟨b, List.mem_append_left _ hb, hstands⟩
    · rw [hnew]
      exact ⟨_, List.mem_append_right _ (List.mem_singleton.mpr rfl), .inl rfl⟩
  · rw [houtcome]
    exact .inl rfl
  · rw [houtcome]
    exact Outcome.named_idle rfl

/-- Nothing was written of the account. -/
theorem frame (h : Covered bases a d) (hledger : d'.ledgerOf a = d.ledgerOf a) (hsame : SameRows a d d') :
    Covered bases a d' := by
  have houtcome := hsame.outcome
  have hresolved : resolvedOf d' a = resolvedOf d a := congrArg (List.filter _) hsame.discrepancy
  have hcheckpoints : checkpointsOf d' a = checkpointsOf d a := congrArg (List.map _) hsame.verified
  obtain ⟨head, sorted, length, stored, checkpoints, current, named⟩ := h
  rw [← hledger, ← hcheckpoints] at stored checkpoints
  rw [← hledger, ← houtcome] at current named
  exact ⟨head, sorted, hresolved ▸ length, stored, checkpoints, current, named⟩

theorem resolve (h : Covered bases a d) (r : ResolveRequest) :
    ∃ bases', Covered bases' a (r.respond testClient d).committed := by
  cases hi : d.findOpenDiscrepancy r.accountId with
  | none =>
    rw [ResolveRequest.respond_none hi]
    exact ⟨bases, h⟩
  | some i =>
    rcases ResolveRequest.respond_cases hi with ⟨throughNo, balance, hacceptable, hrespond⟩ | ⟨⟨f, hf⟩, _⟩
    · rw [hrespond]
      by_cases ha : r.accountId = a
      · subst ha
        exact ⟨_, h.accept hi hacceptable⟩
      · exact ⟨bases, h.frame rfl (accepted_sameRows hi (Ne.symm ha))⟩
    · rw [hf]
      exact ⟨bases, h⟩

/-- Rows past all there are change nothing that was attested. -/
theorem append (h : Covered bases a d) {row : CustomerAccountLedger}
    (hguard : ∀ q ∈ d.ledgerOf row.accountId, q.no < row.no)
    {ledger : Table CustomerAccountLedger CustomerAccountLedger.clash}
    (hinsert : d.customerAccountLedger.insert row = some ledger) :
    Covered bases a { d with customerAccountLedger := ledger } := by
  have hledger := @Database.ledgerOf_insert d { d with customerAccountLedger := ledger } row hinsert a
  by_cases ha : row.accountId = a
  · subst ha
    rw [if_pos rfl] at hledger
    have hstands : ∀ b p, Stands b p (d.ledgerOf row.accountId) →
        Stands b p (d.ledgerOf row.accountId ++ [row]) := fun b p hp => hp.append hguard
    refine ⟨h.head, h.sorted, h.length, fun b hb => ?_, fun p hp => ?_, ?_, ?_⟩
    · rw [hledger]
      obtain ⟨hcheckpoint, r, hr, hposition⟩ := h.stored b hb
      exact ⟨hcheckpoint, r, List.mem_append_left _ hr, hposition⟩
    · rw [hledger]
      obtain ⟨b, hb, hp⟩ := h.checkpoints p hp
      exact ⟨b, hb, hstands b p hp⟩
    · rw [hledger]
      obtain ⟨b, hb, hp⟩ := h.current
      exact ⟨b, hb, hstands b _ hp⟩
    · rw [hledger]
      exact h.named.append hguard
  · rw [if_neg ha, List.append_nil] at hledger
    exact h.frame hledger ⟨rfl, rfl⟩

/-- What one step preserves. -/
theorem next (h : Covered bases a d) {step : QuarantineStep} (hstep : step.next d = some d') :
    ∃ bases', Covered bases' a d' := by
  cases step with
  | verify run =>
    simp only [QuarantineStep.next] at hstep
    split at hstep
    · rename_i hscan
      cases hstep
      exact ⟨bases, h.verify hscan⟩
    · cases hstep
  | resolve r =>
    cases hstep
    exact h.resolve r
  | append row =>
    simp only [QuarantineStep.next] at hstep
    split at hstep
    · rename_i hguard
      obtain ⟨ledger, hledger, rfl⟩ := Option.map_eq_some_iff.mp hstep
      exact ⟨bases, h.append hguard.2 hledger⟩
    · cases hstep

/-- What a run preserves. -/
theorem run (h : Covered bases a d) {steps : List QuarantineStep}
    (hsteps : steps.foldlM QuarantineStep.next d = some d') : ∃ bases', Covered bases' a d' := by
  induction steps generalizing d bases with
  | nil =>
    cases hsteps
    exact ⟨bases, h⟩
  | cons step steps ih =>
    rw [List.foldlM_cons] at hsteps
    obtain ⟨d₁, h₁, hrest⟩ := Option.bind_eq_some_iff.mp hsteps
    obtain ⟨bases₁, hnext⟩ := h.next h₁
    exact ih hnext hrest

end Covered

/-- **What every checkpoint says**: whatever was verified, resolved and appended, each
stands on the origin or on a row that was accepted, and there are no more of these
than incidents resolved. -/
theorem checkpoints_attested (d : Database) (h : QuarantineReachable d) (a : UUID) :
    ∃ bases, Covered bases a d := by
  obtain ⟨d₀, steps, hstart, hsteps⟩ := h
  exact (Covered.start hstart a).run hsteps

/-- The gap before row 3 is found and accepted. -/
def gapAccepted : List QuarantineStep := gapSteps ++ [QuarantineStep.resolve .acceptRow]

theorem gap_attested : ∃ d bases, gapAccepted.foldlM QuarantineStep.next
      (sampleLedger [sampleRow 1 .zero .zero 1] (by decide)) = some d ∧
    bases.length = 2 ∧ Covered bases 1 d := by
  have hrun : (gapAccepted.foldlM QuarantineStep.next
      (sampleLedger [sampleRow 1 .zero .zero 1] (by decide))).map (fun d => (resolvedOf d 1).length) =
      some 1 := by decide
  obtain ⟨d, hd, hresolved⟩ := Option.map_eq_some_iff.mp hrun
  have hstart : Unverified (sampleLedger [sampleRow 1 .zero .zero 1] (by decide)) :=
    ⟨rfl, rfl, by decide⟩
  obtain ⟨bases, hcovered⟩ := checkpoints_attested d ⟨_, _, hstart, hd⟩ 1
  exact ⟨d, bases, hd, by rw [hcovered.length, hresolved], hcovered⟩

end Statement.Wiring
