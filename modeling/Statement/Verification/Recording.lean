import Statement.Verification.Quarantine

/-! A verifier's commit, against the snapshot that its batch was read from.

The batch is read in one statement and written in later ones, and other
transactions commit in between. As long as they leave the outcomes of the accounts
of the batch, the commit advances these from the snapshot; of every other account
it leaves the rows. -/
namespace Statement.Verification
open Domain Foundation

/-! ### The times of the writes -/

/-- Writes that all differ have a clock on which each happened at its time. -/
theorem exists_clock {done : List (Write × Timestamp)} (h : (done.map Prod.fst).Nodup) :
    ∃ clock : Write → Timestamp, done = (done.map Prod.fst).map fun w => (w, clock w) := by
  induction done with
  | nil => exact ⟨fun _ => 0, rfl⟩
  | cons x done ih =>
    obtain ⟨w, now⟩ := x
    obtain ⟨hw, hdone⟩ := List.nodup_cons.mp h
    obtain ⟨clock, hclock⟩ := ih hdone
    refine ⟨Function.update clock w now, ?_⟩
    simp only [List.map_cons, Function.update_self, List.cons.injEq, true_and]
    refine hclock.trans (List.map_congr_left fun v hv => ?_)
    have hne : v ≠ w := fun he => hw (he ▸ hv)
    rw [Function.update_of_ne hne]

theorem writes_nodup (v : CustomerAccountVerification) : (writes v).Nodup := by
  unfold writes
  split <;> split <;> simp

theorem batch_writes_nodup {batch : List CustomerAccountVerification}
    (h : (batch.map (·.accountId)).Nodup) : (batch.flatMap writes).Nodup := by
  refine List.nodup_flatMap.mpr ⟨fun v _ => writes_nodup v, ?_⟩
  refine (List.pairwise_map.mp h).imp fun hne w hw hw' => hne ?_
  -- a write names the report that it writes
  rcases writes_account hw with rfl | rfl
  · rcases writes_account hw' with he | he
    · cases he
      rfl
    · cases he
  · rcases writes_account hw' with he | he
    · cases he
    · cases he
      rfl

/-! ### From the batch query to the commit -/

/-- The writes are those of a batch that was read from `s`, and the accounts of the
batch are in `d` as they were. -/
def Recording (s : Database) (done : List (Write × Timestamp)) (todo : List Write) (d : Database) : Prop :=
  ∃ p scan, scan.Perm s.customerAccount.rows ∧
    done.map Prod.fst ++ todo = (finalSelect s p scan).flatMap writes ∧
    ∀ a ∈ picked s p scan, outcome d a = outcome s a

/-- What the commit of a batch read from `s` does. -/
structure Committed (s d d' : Database) (batch : List UUID) : Prop where
  idle : ∀ a ∈ batch, d.findOpenDiscrepancy a = none
  advanced : ∀ a ∈ batch, ∃ windowRows,
    (outcome d a).advance windowRows (s.ledgerOf a) = some (outcome d' a)
  others : ∀ a, a ∉ batch → SameRows a d d'

section
variable {s d d' : Database} {done : List (Write × Timestamp)} {todo : List Write}

theorem Recording.start {p : BatchParams} {scan : List CustomerAccount}
    (hscan : scan.Perm s.customerAccount.rows) :
    Recording s [] ((finalSelect s p scan).flatMap writes) s :=
  ⟨p, scan, hscan, rfl, fun _ _ => rfl⟩

theorem Recording.write {w : Write} (h : Recording s done (w :: todo) d) (now : Timestamp) :
    Recording s (done ++ [(w, now)]) todo d := by
  obtain ⟨p, scan, hscan, hwrites, hsame⟩ := h
  refine ⟨p, scan, hscan, ?_, hsame⟩
  rw [List.map_append, List.append_assoc]
  exact hwrites

/-- Only the accounts of the batch matter, and these have no incident. -/
theorem Recording.stable (h : Recording s done todo d)
    (hsame : ∀ a, d.findOpenDiscrepancy a = none → outcome d' a = outcome d a) :
    Recording s done todo d' := by
  obtain ⟨p, scan, hscan, hwrites, hbatch⟩ := h
  refine ⟨p, scan, hscan, hwrites, fun a ha => ?_⟩
  have hincident : (outcome d a).incident = none := hbatch a ha ▸ (picked_unfinished ha).1.1
  rw [hsame a (Option.map_eq_none_iff.mp hincident), hbatch a ha]

/-- **A commit of the verifier**: it advances the accounts of its batch, as it has
read them, and leaves the others. -/
theorem Recording.commit (h : Recording s done [] d) (hc : Verifier.applyAll done d = some d') :
    ∃ batch, Committed s d d' batch := by
  obtain ⟨p, scan, hscan, hwrites, hsame⟩ := h
  rw [List.append_nil] at hwrites
  have haccounts := Database.accountIds_nodup hscan
  obtain ⟨clock, hclock⟩ := exists_clock (hwrites ▸ batch_writes_nodup (finalSelect_nodup haccounts))
  have hfold : (finalSelect s p scan).foldlM (record clock) d = some d' := by
    rw [← Verifier.applyAll_writes, ← hwrites, ← hclock]
    exact hc
  rcases record_batch clock hscan hsame with ⟨_, hnone⟩ | ⟨d₁, hd₁, _, hadvanced, _⟩
  · exact absurd (hnone.symm.trans hfold) (Option.some_ne_none d').symm
  · obtain rfl : d₁ = d' := Option.some.inj (hd₁.symm.trans hfold)
    refine ⟨picked s p scan, fun a ha => ?_, fun a ha => ⟨p.windowRows, ?_⟩, fun a ha => ?_⟩
    · have hincident : (outcome d a).incident = none := hsame a ha ▸ (picked_unfinished ha).1.1
      exact Option.map_eq_none_iff.mp hincident
    · rw [hsame a ha]
      exact hadvanced a ha
    · refine batch_sameRows (fun v hv he => ha ?_) hfold
      obtain ⟨t, ht, rfl⟩ := mem_finalSelect haccounts hv
      exact List.mem_map.mpr ⟨t, ht, by rw [← he, report_accountId]⟩

end

/-! ### Incidents -/

/-- Incidents were opened, and nothing happened to those there were. -/
def Opens (d d' : Database) : Prop :=
  ∃ opened, d'.customerAccountLedgerDiscrepancy.rows = d.customerAccountLedgerDiscrepancy.rows ++ opened ∧
    ∀ i ∈ opened, i.resolvedAt = none

theorem Opens.refl (d : Database) : Opens d d := ⟨[], (List.append_nil _).symm, by simp⟩

theorem Opens.trans {d d' d'' : Database} (h : Opens d d') (h' : Opens d' d'') : Opens d d'' := by
  obtain ⟨opened, hrows, hopened⟩ := h
  obtain ⟨opened', hrows', hopened'⟩ := h'
  refine ⟨opened ++ opened', by rw [hrows', hrows, List.append_assoc], fun i hi => ?_⟩
  exact (List.mem_append.mp hi).elim (hopened i) (hopened' i)

theorem apply_opens {w : Write} {now : Timestamp} {d d' : Database} (h : w.apply now d = some d') :
    Opens d d' := by
  cases w with
  | discrepancy v =>
    simp only [Write.apply, recordDiscrepancy] at h
    split at h
    · simp only [Option.bind_eq_bind, Option.bind_eq_some_iff, Option.some.injEq] at h
      obtain ⟨expected, _, rfl⟩ := h
      rcases Table.insertOrIgnore_cases d.customerAccountLedgerDiscrepancy _ with ⟨_, hsame⟩ | ⟨_, hrows⟩
      · exact ⟨[], (congrArg Table.rows hsame).trans (List.append_nil _).symm, by simp⟩
      · exact ⟨_, hrows, by simp⟩
    · cases h
  | verified v =>
    cases h
    exact .refl _

theorem foldlM_opens {α : Type} {f : Database → α → Option Database}
    (hf : ∀ x d d', f d x = some d' → Opens d d') {l : List α} {d d' : Database}
    (h : l.foldlM f d = some d') : Opens d d' := by
  induction l generalizing d with
  | nil =>
    cases h
    exact .refl _
  | cons x l ih =>
    rw [List.foldlM_cons] at h
    obtain ⟨d₁, h₁, hrest⟩ := Option.bind_eq_some_iff.mp h
    exact (hf x d d₁ h₁).trans (ih hrest)

/-- A transaction of the verifier deletes no incident and changes none. -/
theorem applyAll_incidents {done : List (Write × Timestamp)} {d d' : Database}
    (h : Verifier.applyAll done d = some d') :
    d.customerAccountLedgerDiscrepancy.rows ⊆ d'.customerAccountLedgerDiscrepancy.rows := by
  obtain ⟨opened, hrows, _⟩ := foldlM_opens (fun _ _ _ => apply_opens) h
  rw [hrows]
  exact List.subset_append_left _ _

/-- However often the verifier runs, it only opens incidents. -/
theorem after_opens (inputs : Nat → RunInput) (d : Database) (n : Nat) : Opens d (after inputs d n) := by
  induction n with
  | zero => exact .refl _
  | succ n ih =>
    refine ih.trans ?_
    rw [after, RunInput.rerun]
    cases hrun : (inputs n).verify (after inputs d n) with
    | none => exact .refl _
    | some d' =>
      exact foldlM_opens (fun _ _ _ => foldlM_opens fun _ _ _ => apply_opens) (RunInput.verify_some hrun)

/-- An account's incidents, oldest first. -/
def incidentsOf (d : Database) (a : UUID) : List CustomerAccountLedgerDiscrepancy :=
  d.customerAccountLedgerDiscrepancy.rows.filter (·.accountId = a)

/-- Of an account that had no open incident, one was opened at most. -/
theorem Opens.one {d d' : Database} (h : Opens d d') {a : UUID} (hidle : d.findOpenDiscrepancy a = none)
    {i : CustomerAccountLedgerDiscrepancy} (hi : d'.findOpenDiscrepancy a = some i) :
    incidentsOf d' a = incidentsOf d a ++ [i] := by
  obtain ⟨opened, hrows, hopened⟩ := h
  have hdistinct : (opened.filter (·.accountId = a)).Pairwise fun _ _ => False := by
    have hclash := d'.customerAccountLedgerDiscrepancy.distinct
    rw [hrows] at hclash
    refine ((List.pairwise_append.mp hclash).2.1.filter _).imp_of_mem fun {j k} hj hk hne => hne ?_
    obtain ⟨hj, hja⟩ := List.mem_filter.mp hj
    obtain ⟨hk, hka⟩ := List.mem_filter.mp hk
    exact .inr ⟨(of_decide_eq_true hja).trans (of_decide_eq_true hka).symm, hopened j hj, hopened k hk⟩
  have hmem : i ∈ opened.filter (·.accountId = a) := by
    have hopen := List.find?_some hi
    have hi := List.mem_of_find?_eq_some hi
    rw [hrows] at hi
    rcases List.mem_append.mp hi with hi | hi
    · exact absurd hopen (List.find?_eq_none.mp hidle i hi)
    · exact List.mem_filter.mpr ⟨hi, by simpa using (of_decide_eq_true hopen).1⟩
  have hone : opened.filter (·.accountId = a) = [i] := by
    cases hl : opened.filter (·.accountId = a) with
    | nil =>
      rw [hl] at hmem
      cases hmem
    | cons j rest =>
      rw [hl] at hdistinct hmem
      cases rest with
      | nil => rw [List.mem_singleton.mp hmem]
      | cons k rest => exact ((List.pairwise_cons.mp hdistinct).1 k List.mem_cons_self).elim
  rw [incidentsOf, incidentsOf, hrows, List.filter_append, hone]

end Statement.Verification
