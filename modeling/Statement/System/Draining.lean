import Statement.Foundation.Draining
import Statement.System.Waiting
import Statement.Verification.Sequential

/-! The service comes to rest.

A transaction has a few statements, and a run of the verifier as many as its batch has
writes, two an account at most. While any transaction is open, somebody moves or has
failed. So when nothing new begins, whatever is open ends, in whatever order it goes. -/
namespace Statement.System
open Domain Foundation Account Payment Verification

/-- How many statements a party may still run. -/
def Party.left : Party → Nat
  | .create c => match c.phase with
    | .begun => 2
    | .inserted => 1
    | .flushed | .raised => 0
  | .change c => match c.phase with
    | .begun => 3
    | .assigned _ _ => 2
    | .updated _ _ _ _ => 1
    | .unchanged _ | .archived _ _ _ _ | .raised _ => 0
  | .payment j => match j.phase with
    | .begun => 4
    | .locked => 3
    | .unseen => 2
    | .following _ => 1
    | .flushed _ | .duplicate | .raised _ => 0
  | .verify v => match v.phase with
    | .begun => 2 * v.request.accountsPerRun + 2
    | .locked => 2 * v.request.accountsPerRun + 1
    | .writing _ _ todo => todo.length
    | .skipped | .raised => 0

variable {mac : VersionToken.Digest} {E : Set PaymentMessage}

theorem create_shrinks {c c' : Create} {d : Database} {ks : List Lock}
    (h : c.statement d = some (ks, c')) : (Party.create c').left < (Party.create c).left := by
  obtain ⟨r, phase⟩ := c
  cases phase with
  | begun =>
    simp only [Create.statement] at h
    split at h <;> cases h <;> simp [Party.left]
  | inserted =>
    simp only [Create.statement] at h
    split at h <;> cases h <;> simp [Party.left]
  | flushed => cases h
  | raised => cases h

theorem change_shrinks {c c' : Change} {now : Timestamp} {d : Database} {ks : List Lock}
    (h : c.statement mac now d = some (ks, c')) : (Party.change c').left < (Party.change c).left := by
  obtain ⟨r, phase⟩ := c
  obtain ⟨r', phase'⟩ := c'
  obtain ⟨rfl, hstep⟩ := Change.statement_some mac h
  cases hstep <;> simp [Party.left]

theorem payment_shrinks {j j' : Job} {now : Timestamp} {d : Database} {ks : List Lock}
    (h : j.statement now d = some (ks, j')) : (Party.payment j').left < (Party.payment j).left := by
  obtain ⟨e, phase⟩ := j
  cases phase with
  | begun =>
    simp only [Job.statement] at h
    split at h
    · cases h
      simp [Party.left]
    · cases h
      split <;> simp [Party.left]
  | locked =>
    cases h
    by_cases hseen : d.hasLedgerOperation e.accountId e.id = true <;> simp [Party.left, hseen]
  | unseen =>
    simp only [Job.statement] at h
    split at h
    · cases h
      simp [Party.left]
    · rename_i previous _
      cases h
      by_cases hnegative : Decimal.add previous.balance.cents e.signedAmount < 0 <;>
        simp [Party.left, hnegative]
  | following previous =>
    simp only [Job.statement] at h
    split at h
    · cases h
      simp [Party.left]
    · split at h <;> cases h <;> simp [Party.left]
  | flushed row => cases h
  | duplicate => cases h
  | raised f => cases h

/-- A batch has two writes an account at most. -/
theorem length_writes (d : Database) (p : BatchParams) {scan : List CustomerAccount}
    (hscan : scan.Perm d.customerAccount.rows) :
    ((finalSelect d p scan).flatMap writes).length ≤ 2 * p.accountsPerRun := by
  have hbatch : (finalSelect d p scan).length ≤ p.accountsPerRun := by
    rw [finalSelect_eq d p (Database.accountIds_nodup hscan), List.length_map, length_targets]
    exact min_le_left _ _
  have hwrites : ∀ v ∈ finalSelect d p scan, (writes v).length ≤ 2 := by
    intro v _
    unfold writes
    split <;> split <;> simp
  rw [List.length_flatMap]
  have hsum := List.sum_le_card_nsmul ((finalSelect d p scan).map fun v => (writes v).length) 2 (by simpa using hwrites)
  rw [List.length_map, smul_eq_mul] at hsum
  omega

theorem verify_shrinks {v v' : Verifier} {now : Timestamp} {scan : List CustomerAccount} {d : Database}
    {free : Lock → Bool} {ks : List Lock} (h : v.statement now scan d free = some (ks, v')) :
    (Party.verify v').left < (Party.verify v).left := by
  obtain ⟨r, phase⟩ := v
  obtain ⟨r', phase'⟩ := v'
  obtain ⟨rfl, hstep⟩ := Verifier.statement_some h
  cases hstep with
  | locked _ => simp [Party.left]
  | skipped _ => simp [Party.left]
  | read hscan _ => exact Nat.lt_succ_of_le (length_writes d (r'.params now) hscan)
  | outOfRange _ => simp [Party.left]
  | refused _ _ => simp [Party.left]
  | written _ _ => simp [Party.left]

/-- **Every statement leaves its transaction fewer to run.** -/
theorem service_shrinks (mac : VersionToken.Digest) : Shrinks (service mac) Party.left := by
  intro i d free l ks l' hst
  cases Party.statement_some hst with
  | create hc => exact create_shrinks hc
  | change hc => exact change_shrinks hc
  | payment hj => exact payment_shrinks hj
  | verify hv => exact verify_shrinks hv

/-! ### Until nobody runs -/

section
variable {T : Type} [DecidableEq T] {customer : Table Customer Customer.clash} {scheduleId : Nat}
  {as : List (Step T)} {w : Service T}

/-- A step that brings an open transaction nearer to its end: a statement, a commit, or
the rollback of one that has failed. -/
def Advances (w : Service T) (a : Step T) : Prop :=
  a.Continues ∧ ∀ t, a = .rollback t → ∃ l, w.running t = some l ∧ l.failed

theorem Moves.advances {t : T} (h : Moves (service mac) w t) :
    ∃ a w', Advances w a ∧ w.next (service mac) a = some w' := by
  rcases h with ⟨i, w', hw'⟩ | ⟨w', hw'⟩
  · exact ⟨.statement t i, w', ⟨trivial, fun u hu => by cases hu⟩, hw'⟩
  · exact ⟨.commit t, w', ⟨trivial, fun u hu => by cases hu⟩, hw'⟩

theorem Goes.advances {t : T} (h : Goes mac w t) :
    ∃ a w', Advances w a ∧ w.next (service mac) a = some w' := by
  obtain ⟨l, hl, hfailed | hmoves⟩ := h
  · refine ⟨.rollback t, w.finish t w.committed, ⟨trivial, fun u hu => ?_⟩, ?_⟩
    · cases hu
      exact ⟨l, hl, hfailed⟩
    · simp [World.next, hl]
  · exact Moves.advances hmoves

/-- While anybody runs, somebody gets on: who does not wait. -/
theorem exists_advance (hreach : Reachable mac E w) (hvalid : (waitingContract mac E scheduleId).Valid w)
    {t : T} (ht : w.running t ≠ none) : ∃ a w', Advances w a ∧ w.next (service mac) a = some w' := by
  obtain ⟨l, hl⟩ := Option.ne_none_iff_exists'.mp ht
  obtain ⟨u, _, _, hgoes⟩ := hvalid.exists_goes (service_ranked mac E scheduleId)
    (fun _ _ hv => party_goes hreach hv) hl
  exact hgoes.advances

end

theorem begin_mem_append {T : Type} {as bs : List (Step T)} (hbs : ∀ a ∈ bs, a.Continues) {t : T}
    {r : Request} (h : Action.begin t r ∈ as ++ bs) : Action.begin t r ∈ as :=
  (List.mem_append.mp h).resolve_right fun hb => hbs _ hb

/-- **The service drains**: once nothing new begins, every run takes at most the steps
that were left, and it can go on until nobody is running. -/
theorem service_drains {T : Type} [DecidableEq T] (mac : VersionToken.Digest) (E : Set PaymentMessage)
    (customer : Table Customer Customer.clash) (scheduleId : Nat) (as : List (Step T)) (w : Service T)
    (hrun : RunsFrom mac E (initial T customer) as w)
    (hschedule : ∀ t r, Action.begin t (.verify r) ∈ as → r.scheduleId = scheduleId) :
    ∃ s : Finset T, RunsWithin w s ∧ ∀ (bs : List (Step T)) (w' : Service T),
      (∀ a ∈ bs, a.Continues) → w.run (service mac) bs = some w' →
        bs.length ≤ load Party.left w s ∧
        ((∃ t, w'.running t ≠ none) → ∃ a w'', Advances w' a ∧ w'.next (service mac) a = some w'') := by
  obtain ⟨s, hs⟩ := runsWithin_run hrun.2
  refine ⟨s, hs, fun bs w' hbs hw' => ⟨?_, fun hopen => ?_⟩⟩
  · have hload := (run_le_load (service_shrinks mac) hs hbs hw').2
    omega
  · obtain ⟨t, ht⟩ := hopen
    have hall : RunsFrom mac E (initial T customer) (as ++ bs) w' := by
      refine ⟨fun u e hu => hrun.1 u e (begin_mem_append hbs hu), ?_⟩
      rw [World.run_append, hrun.2, Option.bind_some]
      exact hw'
    have hvalid := waiting_valid hall fun u r hu => hschedule u r (begin_mem_append hbs hu)
    exact exists_advance ⟨customer, _, hall⟩ hvalid ht

/-- A job waits for a verifier that waits for another job. -/
theorem waiting_run_drains : ∃ (w : Service Nat) (s : Finset Nat), Waits (service fun _ => 0) w 1 2 ∧
    Waits (service fun _ => 0) w 2 3 ∧ RunsWithin w s ∧
    ∀ (bs : List (Step Nat)) (w' : Service Nat), (∀ a ∈ bs, a.Continues) →
      w.run (service fun _ => 0) bs = some w' → bs.length ≤ load Party.left w s := by
  obtain ⟨w, hrun, hjob, hverifier⟩ := waitingRun_waits
  obtain ⟨s, hs, hdrains⟩ := service_drains _ _ openingCustomer 0 waitingRun w hrun waitingRun_schedule
  exact ⟨w, s, hjob, hverifier, hs, fun bs w' hbs hw' => (hdrains bs w' hbs hw').1⟩

end Statement.System
