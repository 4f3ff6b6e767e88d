import Statement.Verification.Incremental

/-! Quarantine, as the verifier keeps it.

An incident is recorded with the position that the walk had reached, which the run
banks as the account's checkpoint; until it is resolved the account is not picked,
so the two stay together. There is always a row past that checkpoint: the broken
row itself, or, for a break on the anchor, the row that made the verifier pick the
account. -/
namespace Statement.Verification
open Domain Foundation

/-! ### One account -/

/-- An open incident agrees with the checkpoint, and the ledger has rows to go on. -/
structure Outcome.Consistent (o : Outcome) (ledger : List CustomerAccountLedger) : Prop where
  nonneg : 0 ≤ o.start.no
  prev : ∀ i, o.incident = some i → i.prevNo = o.start.no
  named : ∀ i, o.incident = some i → i.kind ≠ .anchorBalance →
    o.start.no < i.no ∧ ∃ r ∈ ledger, r.no = i.no
  past : ∀ i, o.incident = some i → ∃ r ∈ ledger, o.start.no < r.no

/-- Without an incident there is nothing to agree on. -/
theorem Outcome.consistent_idle {o : Outcome} {ledger : List CustomerAccountLedger} (hnonneg : 0 ≤ o.start.no)
    (hidle : o.incident = none) : o.Consistent ledger := by
  have hnot : ∀ i, o.incident ≠ some i := fun i hi => Option.some_ne_none i (hi.symm.trans hidle)
  exact ⟨hnonneg, fun i hi => absurd hi (hnot i), fun i hi => absurd hi (hnot i),
    fun i hi => absurd hi (hnot i)⟩

theorem check_other {p : Position} {r : CustomerAccountLedger} {kind : LedgerDiscrepancyKind}
    (h : check p r = some kind) (hk : kind ≠ .anchorBalance) : p.no < r.no := by
  unfold check flag at h
  split_ifs at h with h₁ h₂ h₃ h₄
  · cases h
    exact absurd rfl hk
  · exact h₂.1
  · exact h₃.1
  · exact h₄.1

theorem incidentOf_some {previous : Position} {row : CustomerAccountLedger}
    {kind : LedgerDiscrepancyKind} {i : Incident} (h : incidentOf previous row kind = some i) :
    i.no = row.no ∧ i.kind = kind ∧ i.prevNo = previous.no := by
  obtain ⟨_, _, rfl⟩ := Option.map_eq_some_iff.mp h
  exact ⟨rfl, rfl, rfl⟩

namespace Outcome
variable {o o' : Outcome} {ledger : List CustomerAccountLedger} {windowRows : Nat}

/-- Banking a position that is not before the anchor makes it the anchor. -/
theorem bank_start {p : Position} (hp : o.start.no ≤ p.no) (incident : Option Incident) :
    (⟨incident, o.bank p⟩ : Outcome).start.no = p.no := by
  by_cases hlt : o.start.no < p.no
  · rw [bank_past hlt]
    rfl
  · rw [bank_stay hlt]
    exact le_antisymm hp (not_lt.mp hlt)

/-- A walk never falls behind its anchor. -/
theorem start_le_reached (ledger : List CustomerAccountLedger) (windowRows : Nat) :
    o.start.no ≤ (walk check position o.start ((o.rest ledger).take windowRows)).reached.no := by
  have hreached := @walk_reached _ _ _ check position o.start ((o.rest ledger).take windowRows)
  cases hreached with
  | inl hstart => rw [hstart]
  | inr hrow =>
    obtain ⟨r, hr, hreached⟩ := hrow
    rw [hreached]
    exact (mem_rest.mp (List.mem_of_mem_take hr)).2

/-- Only the anchor's own row is compared with the checkpoint. -/
theorem anchorBalance_previous (hl : ledger.Pairwise fun r q => r.no ≠ q.no) {previous : Position}
    {row : CustomerAccountLedger}
    (h : walk check position o.start ((o.rest ledger).take windowRows) =
      .broken previous row .anchorBalance) : previous = o.start := by
  obtain ⟨pre, post, hwindow, hpre, hcheck⟩ := walk_broken h
  have hsorted := (rest_sorted (o := o) hl).sublist (List.take_sublist windowRows _)
  have hlast := walk_clean_last hpre
  cases hq : pre.getLast? with
  | none =>
    rw [hlast, hq]
    rfl
  | some q =>
    rw [hq] at hlast
    rw [hwindow] at hsorted
    have hlt : q.no < row.no :=
      (List.pairwise_append.mp hsorted).2.2 q (List.mem_of_getLast? hq) row List.mem_cons_self
    have hno : row.no = previous.no := check_anchorBalance hcheck
    rw [hlast] at hno
    exact absurd hno (ne_of_gt hlt)

/-- What a run leaves of the account it advances: the incident's position is banked. -/
theorem advance_prev (hadvance : o.advance windowRows ledger = some o') :
    ∀ i, o'.incident = some i → i.prevNo = o'.start.no := by
  have hle := start_le_reached (o := o) ledger windowRows
  rw [Outcome.advance] at hadvance
  cases hpass : walk check position o.start ((o.rest ledger).take windowRows) with
  | clean last =>
    rw [hpass] at hadvance
    cases hadvance
    intro i hi
    cases hi
  | broken previous row kind =>
    rw [hpass] at hle hadvance
    obtain ⟨incident, hincident, rfl⟩ := Option.map_eq_some_iff.mp hadvance
    intro i hi
    cases hi
    exact (incidentOf_some hincident).2.2.trans (bank_start hle _).symm

/-- A run leaves the account it advances consistent. -/
theorem Consistent.advance (h : o.Consistent ledger) (hl : ledger.Pairwise fun r q => r.no ≠ q.no)
    (hunfinished : o.Unfinished ledger) (hadvance : o.advance windowRows ledger = some o') :
    o'.Consistent ledger := by
  have hprev := advance_prev hadvance
  have hle := start_le_reached (o := o) ledger windowRows
  rw [Outcome.advance] at hadvance
  cases hpass : walk check position o.start ((o.rest ledger).take windowRows) with
  | clean last =>
    rw [hpass] at hle hadvance
    cases hadvance
    have hle : o.start.no ≤ last.no := hle
    refine consistent_idle ?_ rfl
    rw [bank_start hle none]
    exact h.nonneg.trans hle
  | broken previous row kind =>
    rw [hpass] at hle hadvance
    obtain ⟨incident, hincident, rfl⟩ := Option.map_eq_some_iff.mp hadvance
    obtain ⟨hno, hkind, _⟩ := incidentOf_some hincident
    have hstart : (⟨some incident, o.bank previous⟩ : Outcome).start.no = previous.no :=
      bank_start hle _
    obtain ⟨pre, post, hwindow, _, hcheck⟩ := walk_broken hpass
    have hrow : row ∈ ledger :=
      (mem_rest.mp (List.mem_of_mem_take (hwindow ▸ by simp : row ∈ (o.rest ledger).take windowRows))).1
    refine ⟨?_, hprev, fun i hi hne => ?_, fun i hi => ?_⟩
    · rw [hstart]
      exact h.nonneg.trans hle
    · cases hi
      rw [hstart, hno]
      exact ⟨check_other hcheck (hkind ▸ hne), row, hrow, rfl⟩
    · cases hi
      by_cases hanchor : kind = .anchorBalance
      · subst hanchor
        obtain ⟨r, hr, hlt⟩ := hunfinished.2
        refine ⟨r, hr, ?_⟩
        rw [hstart, anchorBalance_previous hl hpass]
        exact hlt
      · refine ⟨row, hrow, ?_⟩
        rw [hstart]
        exact check_other hcheck hanchor

theorem Consistent.mono {ledger' : List CustomerAccountLedger} (h : o.Consistent ledger)
    (hsub : ledger ⊆ ledger') : o.Consistent ledger' := by
  refine ⟨h.nonneg, h.prev, fun i hi hne => ?_, fun i hi => ?_⟩
  · obtain ⟨hlt, r, hr, hno⟩ := h.named i hi hne
    exact ⟨hlt, r, hsub hr, hno⟩
  · obtain ⟨r, hr, hlt⟩ := h.past i hi
    exact ⟨r, hsub hr, hlt⟩

end Outcome

/-! ### What a run writes for an account that it has not picked -/

/-- The verifier's rows of an account are the same. -/
structure SameRows (a : UUID) (d d' : Database) : Prop where
  verified : d'.customerAccountLedgerVerified.rows.filter (·.accountId = a) =
    d.customerAccountLedgerVerified.rows.filter (·.accountId = a)
  discrepancy : d'.customerAccountLedgerDiscrepancy.rows.filter (·.accountId = a) =
    d.customerAccountLedgerDiscrepancy.rows.filter (·.accountId = a)

theorem SameRows.trans {a : UUID} {d d' d'' : Database} (h : SameRows a d d') (h' : SameRows a d' d'') :
    SameRows a d d'' := ⟨h'.verified.trans h.verified, h'.discrepancy.trans h.discrepancy⟩

/-- What is read of the account is the same. -/
theorem SameRows.findOpenDiscrepancy {a : UUID} {d d' : Database} (h : SameRows a d d') :
    d'.findOpenDiscrepancy a = d.findOpenDiscrepancy a := by
  have hread : ∀ d : Database, d.findOpenDiscrepancy a =
      (d.customerAccountLedgerDiscrepancy.rows.filter (·.accountId = a)).find? (·.resolvedAt = none) := by
    intro d
    rw [List.find?_filter]
    simp [Database.findOpenDiscrepancy]
  rw [hread, hread, h.discrepancy]

theorem SameRows.findLatestCheckpoint {a : UUID} {d d' : Database} (h : SameRows a d d') :
    d'.findLatestCheckpoint a = d.findLatestCheckpoint a := by
  rw [Database.findLatestCheckpoint, h.verified, Database.findLatestCheckpoint]

theorem SameRows.outcome {a : UUID} {d d' : Database} (h : SameRows a d d') :
    outcome d' a = outcome d a := by
  rw [Verification.outcome, Verification.outcome, h.findOpenDiscrepancy, h.findLatestCheckpoint]

theorem writes_account {v : CustomerAccountVerification} {w : Write} (h : w ∈ writes v) :
    w = .discrepancy v ∨ w = .verified v := by
  unfold writes at h
  rcases List.mem_append.mp h with h | h
  · split at h
    · exact .inl (List.mem_singleton.mp h)
    · cases h
  · split at h
    · exact .inr (List.mem_singleton.mp h)
    · cases h

theorem apply_sameRows {v : CustomerAccountVerification} {w : Write} (hw : w ∈ writes v) {a : UUID}
    (ha : v.accountId ≠ a) {now : Timestamp} {d d' : Database} (h : w.apply now d = some d') :
    SameRows a d d' := by
  rcases writes_account hw with rfl | rfl
  · simp only [Write.apply, recordDiscrepancy] at h
    split at h
    · simp only [Option.bind_eq_bind, Option.bind_eq_some_iff, Option.some.injEq] at h
      obtain ⟨_, _, rfl⟩ := h
      exact ⟨rfl, Table.insertOrIgnore_filter _ (decide_eq_false ha)⟩
    · cases h
  · cases h
    exact ⟨Table.insertOrIgnore_filter _ (decide_eq_false ha), rfl⟩

theorem record_sameRows {clock : Write → Timestamp} {v : CustomerAccountVerification} {a : UUID}
    (ha : v.accountId ≠ a) {d d' : Database} (h : record clock d v = some d') : SameRows a d d' := by
  have hwrites : ∀ ws : List Write, (∀ w ∈ ws, w ∈ writes v) → ∀ d d' : Database,
      ws.foldlM (fun d w => w.apply (clock w) d) d = some d' → SameRows a d d' := by
    intro ws
    induction ws with
    | nil =>
      intro _ d d' hd
      cases hd
      exact ⟨rfl, rfl⟩
    | cons w ws ih =>
      intro hws d d' hd
      rw [List.foldlM_cons] at hd
      obtain ⟨d₁, h₁, hrest⟩ := Option.bind_eq_some_iff.mp hd
      exact (apply_sameRows (hws w List.mem_cons_self) ha h₁).trans
        (ih (fun x hx => hws x (List.mem_cons_of_mem w hx)) d₁ d' hrest)
  exact hwrites (writes v) (fun _ hw => hw) d d' h

theorem batch_sameRows {clock : Write → Timestamp} {a : UUID} {batch : List CustomerAccountVerification}
    (ha : ∀ v ∈ batch, v.accountId ≠ a) {d d' : Database}
    (h : batch.foldlM (record clock) d = some d') : SameRows a d d' := by
  induction batch generalizing d with
  | nil =>
    cases h
    exact ⟨rfl, rfl⟩
  | cons v batch ih =>
    rw [List.foldlM_cons] at h
    obtain ⟨d₁, h₁, hrest⟩ := Option.bind_eq_some_iff.mp h
    exact (record_sameRows (ha v List.mem_cons_self) h₁).trans
      (ih (fun x hx => ha x (List.mem_cons_of_mem v hx)) hrest)

/-- **A quarantined account is left alone**: a run writes nothing for it. -/
theorem rerun_sameRows {i : RunInput} {d : Database} (hscan : i.scan.Perm d.customerAccount.rows)
    {a : UUID} (hopen : d.findOpenDiscrepancy a ≠ none) : SameRows a d (i.rerun d) := by
  have hbatch : ∀ v ∈ finalSelect d i.params i.scan, v.accountId ≠ a := by
    intro v hv
    obtain ⟨t, ht, rfl⟩ := mem_finalSelect (Database.accountIds_nodup hscan) hv
    obtain ⟨x, _, rfl, _, hnone, _⟩ := target_mem ht
    rw [report_accountId]
    exact fun he => hopen (he ▸ hnone)
  rw [RunInput.rerun]
  cases hrun : i.verify d with
  | none => exact ⟨rfl, rfl⟩
  | some d' => exact batch_sameRows hbatch (RunInput.verify_some hrun)

end Statement.Verification
