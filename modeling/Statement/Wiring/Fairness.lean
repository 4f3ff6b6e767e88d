import Statement.Wiring.Attestation

/-! How long an account waits for the verifier.

A run takes the accounts that were checkpointed longest ago. One that it takes is
left with an incident or with a checkpoint of its own time, and either way it is not
taken again before an account that is still waiting. So an account is passed over in
fewer runs than there are accounts, divided by how many a run takes. -/
namespace Statement.Wiring
open Domain Foundation Verification

/-- When the account was last checkpointed. -/
def checkpointedAt (d : Database) (a : UUID) : WithBot Timestamp := verifiedAt (d.findLatestCheckpoint a)

/-- The account waits in the run: it is due, and the run does not take it. -/
structure Waits (n : Nat) (a : UUID) (run : RunInput) (d : Database) : Prop where
  scan : run.scan.Perm d.customerAccount.rows
  accounts : run.params.accountsPerRun = n
  rows : 1 ≤ run.params.rowsPerAccount
  due : selected d run.params a (d.findLatestCheckpoint a)
  passed : a ∉ picked d run.params run.scan
  later : ∀ w, checkpointedAt d a < run.clock w

/-- The account has waited in `k` runs that committed. In between, incidents of other
accounts were resolved, accounts were added and the ledgers changed. -/
inductive PassedOver (n : Nat) (a : UUID) : Database → Nat → Database → Prop where
  | refl (d : Database) : PassedOver n a d 0 d
  | verify {d d₁ d₂ : Database} {k : Nat} (h : PassedOver n a d k d₁) (run : RunInput)
      (hwaits : Waits n a run d₁) (hrun : run.verify d₁ = some d₂) : PassedOver n a d (k + 1) d₂
  | resolve {d d₁ : Database} {k : Nat} (h : PassedOver n a d k d₁) (r : ResolveRequest)
      (hother : r.accountId ≠ a) (hlater : checkpointedAt d₁ a < r.verifiedAt) :
      PassedOver n a d k (r.respond testClient d₁).committed
  | other {d d₁ d₂ : Database} {k : Nat} (h : PassedOver n a d k d₁)
      (hverified : d₂.customerAccountLedgerVerified = d₁.customerAccountLedgerVerified)
      (hdiscrepancy : d₂.customerAccountLedgerDiscrepancy = d₁.customerAccountLedgerDiscrepancy)
      (haccounts : d₁.customerAccount.rows.map (·.id) ⊆ d₂.customerAccount.rows.map (·.id)) :
      PassedOver n a d k d₂

/-- Not taken before an account that was checkpointed at `t`. -/
def Gone (t : WithBot Timestamp) (x : UUID) (d : Database) : Prop :=
  d.findOpenDiscrepancy x ≠ none ∨ t < checkpointedAt d x

/-! ### One run -/

section
variable {n : Nat} {a x : UUID} {run : RunInput} {d d' : Database} {t : WithBot Timestamp}

theorem SameRows.checkpointedAt (h : SameRows a d d') : checkpointedAt d' a = checkpointedAt d a :=
  congrArg verifiedAt h.findLatestCheckpoint

theorem SameRows.gone (h : SameRows x d d') : Gone t x d' ↔ Gone t x d := by
  rw [Gone, Gone, h.findOpenDiscrepancy, SameRows.checkpointedAt h]

/-- A run leaves the rows of the accounts that it does not take. -/
theorem verify_sameRows (hscan : run.scan.Perm d.customerAccount.rows) (hrun : run.verify d = some d')
    (hx : x ∉ picked d run.params run.scan) : SameRows x d d' := by
  refine batch_sameRows (fun v hv he => hx ?_) (RunInput.verify_some hrun)
  obtain ⟨u, hu, rfl⟩ := mem_finalSelect (Database.accountIds_nodup hscan) hv
  exact List.mem_map.mpr ⟨u, hu, by rw [← he, report_accountId]⟩

theorem findLatestCheckpoint_mem {c : CustomerAccountLedgerVerified} (h : d.findLatestCheckpoint x = some c) :
    c ∈ d.customerAccountLedgerVerified.rows ∧ c.accountId = x := by
  simpa using (head_orderBy_le h).1

/-- The latest checkpoint is the one that reaches furthest. -/
theorem le_start_of_mem {c : CustomerAccountLedgerVerified} (h : c ∈ d.customerAccountLedgerVerified.rows) :
    c.throughNo ≤ (outcome d c.accountId).start.no := by
  have hmem : c ∈ d.customerAccountLedgerVerified.rows.filter (·.accountId = c.accountId) := by simpa using h
  rw [← throughNo_eq]
  cases hlatest : d.findLatestCheckpoint c.accountId with
  | none =>
    rw [Database.findLatestCheckpoint, head_orderBy_none] at hlatest
    rw [hlatest] at hmem
    cases hmem
  | some latest => exact (head_orderBy_le hlatest).2 c hmem

theorem picked_eq (d : Database) (p : BatchParams) (scan : List CustomerAccount) :
    picked d p scan = ((orderBy (fun x => verifiedAt x.2)
      ((scan.map fun c => (c.id, d.findLatestCheckpoint c.id)).filter fun x => selected d p x.1 x.2)).take
        p.accountsPerRun).map (·.1) := by
  rw [picked, targets, List.map_map]
  rfl

/-- A run takes as many accounts as it may, none of them after the one that waits. -/
theorem Waits.takes (h : Waits n a run d) (ha : a ∈ d.customerAccount.rows.map (·.id)) :
    (picked d run.params run.scan).length = n ∧
      ∀ x ∈ picked d run.params run.scan, ¬ Gone (checkpointedAt d a) x d := by
  obtain ⟨c, hc, rfl⟩ := List.mem_map.mp ha
  have heligible : (c.id, d.findLatestCheckpoint c.id) ∈
      (run.scan.map fun c => (c.id, d.findLatestCheckpoint c.id)).filter
        fun x => selected d run.params x.1 x.2 :=
    List.mem_filter.mpr ⟨List.mem_map.mpr ⟨c, h.scan.mem_iff.mpr hc, rfl⟩, decide_eq_true h.due⟩
  have hpassed := h.passed
  rw [picked_eq] at hpassed ⊢
  obtain ⟨hlength, hle⟩ := @orderBy_take _ _ _ (fun x => verifiedAt x.2) _ _ _ heligible
    fun hmem => hpassed (List.mem_map_of_mem hmem)
  refine ⟨by rw [List.length_map, hlength, h.accounts], fun x hx hgone => ?_⟩
  obtain ⟨y, hy, rfl⟩ := List.mem_map.mp hx
  obtain ⟨hjoined, hselected⟩ := List.mem_filter.mp (mem_orderBy.mp (List.mem_of_mem_take hy))
  obtain ⟨e, _, rfl⟩ := List.mem_map.mp hjoined
  rcases hgone with hopen | hlater
  · exact hopen (of_decide_eq_true hselected).2.1
  · exact absurd (hle _ hy) (not_le.mpr hlater)

/-- What a run takes is gone. -/
theorem verify_gone (hscan : run.scan.Perm d.customerAccount.rows) (hrows : 1 ≤ run.params.rowsPerAccount)
    (hlater : ∀ w, t < run.clock w) (hrun : run.verify d = some d')
    (hx : x ∈ picked d run.params run.scan) : Gone t x d' := by
  rcases run_cases hscan with ⟨_, hnone⟩ | ⟨d₁, hd₁, hadvanced⟩
  · exact absurd (hnone.symm.trans hrun) (Option.some_ne_none d').symm
  obtain rfl : d₁ = d' := Option.some.inj (hd₁.symm.trans hrun)
  have hunfinished := (picked_unfinished hx).1
  have hadvance := hadvanced.advances x hx
  have hw : 2 ≤ run.params.windowRows := Nat.succ_le_succ hrows
  rcases Outcome.advance_cases (ledgerOf_distinct d x) hunfinished hw with
    ⟨previous, row, kind, hpass, _⟩ | ⟨row, hbank, _, hpast, _⟩
  · -- the run has met a break
    rw [Outcome.advance, hpass] at hadvance
    obtain ⟨i, _, hi⟩ := Option.map_eq_some_iff.mp hadvance
    refine .inl fun hnone => ?_
    have hincident : (outcome d₁ x).incident = none := congrArg (Option.map _) hnone
    rw [← hi] at hincident
    cases hincident
  · -- the run has banked a row past the checkpoint there was
    rw [hbank] at hadvance
    have hcheckpoint : (outcome d₁ x).checkpoint = some (position row) :=
      congrArg Outcome.checkpoint (Option.some.inj hadvance).symm
    obtain ⟨c, hc, hposition⟩ := Option.map_eq_some_iff.mp hcheckpoint
    have hno : c.throughNo = row.no := congrArg Position.no hposition
    refine .inr ?_
    rw [checkpointedAt, hc]
    rcases hadvanced.times c (findLatestCheckpoint_mem hc).1 with hold | ⟨w, hw⟩
    · have hle := le_start_of_mem hold
      rw [(findLatestCheckpoint_mem hc).2, hno] at hle
      omega
    · show t < (c.verifiedAt : WithBot Timestamp)
      rw [hw]
      exact hlater w

theorem Gone.verify (h : Gone t x d) (hscan : run.scan.Perm d.customerAccount.rows)
    (hrows : 1 ≤ run.params.rowsPerAccount) (hlater : ∀ w, t < run.clock w)
    (hrun : run.verify d = some d') : Gone t x d' := by
  by_cases hx : x ∈ picked d run.params run.scan
  · exact verify_gone hscan hrows hlater hrun hx
  · exact (SameRows.gone (verify_sameRows hscan hrun hx)).mpr h

end

/-! ### A resolve request -/

/-- An accepted incident leaves a checkpoint of the request's time. -/
theorem Gone.resolve {t : WithBot Timestamp} {x : UUID} {d : Database} (h : Gone t x d) {r : ResolveRequest}
    (hlater : t < r.verifiedAt) : Gone t x (r.respond testClient d).committed := by
  by_cases hx : r.accountId = x
  · subst hx
    cases hi : d.findOpenDiscrepancy r.accountId with
    | none =>
      rw [ResolveRequest.respond_none hi]
      exact h
    | some i =>
      rcases ResolveRequest.respond_cases hi with ⟨throughNo, balance, hacceptable, hrespond⟩ | ⟨⟨f, hf⟩, _⟩
      · rw [hrespond]
        have houtcome := @ResolveRequest.outcome_accepted _ _ _ hi _ balance hacceptable.past r.accountId
        rw [if_pos rfl] at houtcome
        obtain ⟨c, hc, hposition⟩ := Option.map_eq_some_iff.mp (congrArg Outcome.checkpoint houtcome)
        have hno : c.throughNo = throughNo := congrArg Position.no hposition
        refine .inr ?_
        rw [checkpointedAt, hc]
        obtain ⟨hmem, haccount⟩ := findLatestCheckpoint_mem hc
        rcases Table.mem_insertOrIgnore hmem with hold | rfl
        · have hle := le_start_of_mem hold
          have hpast := hacceptable.past
          rw [ResolveRequest.anchorNo_eq] at hpast
          rw [haccount, hno] at hle
          omega
        · exact hlater
      · rw [hf]
        exact h
  · exact (SameRows.gone (respond_sameRows r d hx)).mpr h

/-! ### Run after run -/

theorem verify_accounts {run : RunInput} {d d' : Database} (hscan : run.scan.Perm d.customerAccount.rows)
    (hrun : run.verify d = some d') : d'.customerAccount = d.customerAccount := by
  rcases run_cases hscan with ⟨_, hnone⟩ | ⟨d₁, hd₁, hadvanced⟩
  · exact absurd (hnone.symm.trans hrun) (Option.some_ne_none d').symm
  · obtain rfl : d₁ = d' := Option.some.inj (hd₁.symm.trans hrun)
    exact hadvanced.untouched.account

/-- Every account that a run has taken is gone. -/
theorem PassedOver.served {n k : Nat} {a : UUID} {d d' : Database} (h : PassedOver n a d k d')
    (ha : a ∈ d.customerAccount.rows.map (·.id)) :
    ∃ served : List UUID, (a :: served).Nodup ∧ served.length = n * k ∧
      a :: served ⊆ d'.customerAccount.rows.map (·.id) ∧
      ∀ x ∈ served, Gone (checkpointedAt d' a) x d' := by
  induction h with
  | refl => exact ⟨[], List.nodup_singleton a, rfl, by simpa using ha, by simp⟩
  | @verify d₁ d₂ k h run hwaits hrun ih =>
    obtain ⟨served, hnodup, hlength, hknown, hgone⟩ := ih
    obtain ⟨hmany, hfirst⟩ := hwaits.takes (hknown List.mem_cons_self)
    have hids := Database.accountIds_nodup hwaits.scan
    have htaken : (picked d₁ run.params run.scan).Nodup := targets_nodup d₁ run.params hids
    have hsame : checkpointedAt d₂ a = checkpointedAt d₁ a :=
      SameRows.checkpointedAt (verify_sameRows hwaits.scan hrun hwaits.passed)
    obtain ⟨hnot, hserved⟩ := List.nodup_cons.mp hnodup
    refine ⟨picked d₁ run.params run.scan ++ served, ?_, ?_, fun x hx => ?_, fun x hx => ?_⟩
    · refine List.nodup_cons.mpr ⟨fun hmem => (List.mem_append.mp hmem).elim hwaits.passed hnot, ?_⟩
      exact List.Nodup.append htaken hserved fun x hx hx' => hfirst x hx (hgone x hx')
    · rw [List.length_append, hmany, hlength]
      ring
    · rw [verify_accounts hwaits.scan hrun]
      rcases List.mem_cons.mp hx with rfl | hx
      · exact hknown List.mem_cons_self
      · rcases List.mem_append.mp hx with hx | hx
        · obtain ⟨c, hc, rfl⟩ := (picked_unfinished hx).2
          exact List.mem_map_of_mem (hwaits.scan.mem_iff.mp hc)
        · exact hknown (List.mem_cons_of_mem a hx)
    · rw [hsame]
      rcases List.mem_append.mp hx with hx | hx
      · exact verify_gone hwaits.scan hwaits.rows hwaits.later hrun hx
      · exact (hgone x hx).verify hwaits.scan hwaits.rows hwaits.later hrun
  | @resolve d₁ k h r hother hlater ih =>
    obtain ⟨served, hnodup, hlength, hknown, hgone⟩ := ih
    refine ⟨served, hnodup, hlength, ?_, fun x hx => ?_⟩
    · rw [(respond_untouched r d₁).account]
      exact hknown
    · rw [SameRows.checkpointedAt (respond_sameRows r d₁ hother)]
      exact (hgone x hx).resolve hlater
  | @other d₁ d₂ k h hverified hdiscrepancy haccounts ih =>
    obtain ⟨served, hnodup, hlength, hknown, hgone⟩ := ih
    have hsame : ∀ x, SameRows x d₁ d₂ := fun x => ⟨by rw [hverified], by rw [hdiscrepancy]⟩
    refine ⟨served, hnodup, hlength, fun x hx => haccounts (hknown hx), fun x hx => ?_⟩
    rw [SameRows.checkpointedAt (hsame a)]
    exact (SameRows.gone (hsame x)).mpr (hgone x hx)

/-- **No account waits for ever**: it is passed over in fewer runs than it takes to go
through all the others. -/
theorem passed_over_lt (n k : Nat) (a : UUID) (d d' : Database) (ha : a ∈ d.customerAccount.rows.map (·.id))
    (h : PassedOver n a d k d') : n * k < d'.customerAccount.rows.length := by
  obtain ⟨served, hnodup, hlength, hknown, _⟩ := h.served ha
  have hle := (hnodup.subperm hknown).length_le
  rw [List.length_cons, hlength, List.length_map] at hle
  exact hle

/-- Two accounts with one row each. -/
def twoAccounts : Database :=
  { sampleLedger [sampleRow 1 .zero .zero 1, { sampleRow 1 .zero .zero 2 with accountId := 2 }] (by decide) with
    customerAccount := ⟨[.create 1 2 .eur none 3 0, .create 2 2 .usd none 3 0], by decide⟩ }

/-- A run takes the first of two accounts. -/
theorem twoAccounts_wait : ∃ d', PassedOver 1 2 twoAccounts 1 d' ∧ 1 * 1 < d'.customerAccount.rows.length := by
  let run : RunInput := ⟨⟨1, 10, 0, 5⟩, twoAccounts.customerAccount.rows, fun _ => 7⟩
  have hruns : (run.verify twoAccounts).isSome = true := by decide
  obtain ⟨d', hd'⟩ := Option.isSome_iff_exists.mp hruns
  have hwaits : Waits 1 2 run twoAccounts :=
    ⟨.refl _, rfl, by decide, by decide, by decide, fun _ => WithBot.bot_lt_coe 7⟩
  have hpassed : PassedOver 1 2 twoAccounts 1 d' := .verify (.refl _) run hwaits hd'
  exact ⟨d', hpassed, passed_over_lt 1 1 2 twoAccounts d' (by decide) hpassed⟩

end Statement.Wiring
