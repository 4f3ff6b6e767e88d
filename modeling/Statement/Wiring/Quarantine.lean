import Statement.Verification.Quarantine
import Statement.Wiring.Resolve

/-! Quarantine, and how it is lifted.

The verifier's runs and the resolve requests are taken one at a time, each on a
session that commits, while the ledger grows by rows of any content. What a run
leaves consistent, a resolve request finds consistent; it closes the one open
incident and moves the checkpoint on. -/
namespace Statement.Domain.Database
open Foundation

/-- The rows that are looked for are not changed, and no other becomes one. -/
theorem filter_map_of_fixed {α : Type} {p : α → Bool} {f : α → α} {l : List α}
    (h : ∀ a ∈ l, p (f a) = p a ∧ (p a = true → f a = a)) : (l.map f).filter p = l.filter p := by
  induction l with
  | nil => rfl
  | cons a l ih =>
    have ih := ih fun b hb => h b (List.mem_cons_of_mem a hb)
    obtain ⟨hsame, hfixed⟩ := h a List.mem_cons_self
    cases hp : p a with
    | true =>
      rw [List.map_cons, List.filter_cons_of_pos (hsame.trans hp), hfixed hp, List.filter_cons_of_pos hp, ih]
    | false =>
      rw [List.map_cons, List.filter_cons_of_neg (by simp [hsame, hp]), ih,
        List.filter_cons_of_neg (by simp [hp])]

theorem find_map_of_fixed {α : Type} {p : α → Bool} {f : α → α} {l : List α}
    (h : ∀ a ∈ l, p (f a) = p a ∧ (p a = true → f a = a)) : (l.map f).find? p = l.find? p := by
  rw [← List.head?_filter, filter_map_of_fixed h, List.head?_filter]

/-- An id has one row. -/
theorem discrepancy_unique {d : Database} {i j : CustomerAccountLedgerDiscrepancy}
    (hi : i ∈ d.customerAccountLedgerDiscrepancy.rows) (hj : j ∈ d.customerAccountLedgerDiscrepancy.rows)
    (h : j.discrepancyId = i.discrepancyId) : j = i :=
  Table.eq_of_clash (fun _ _ hxy => hxy.imp Eq.symm fun ⟨h₁, h₂, h₃⟩ => ⟨h₁.symm, h₃, h₂⟩) hj hi (.inl h)

/-- Resolving an account's incident leaves it none open, and the others theirs. -/
theorem findOpenDiscrepancy_resolve {d : Database} {i : CustomerAccountLedgerDiscrepancy}
    (hi : i ∈ d.customerAccountLedgerDiscrepancy.rows) (hopen : i.resolvedAt = none) (sub : UUID)
    (now : Timestamp) (a : UUID) :
    (d.resolveDiscrepancy i.discrepancyId sub now).findOpenDiscrepancy a =
      if a = i.accountId then none else d.findOpenDiscrepancy a := by
  have hsymm : ∀ x y : CustomerAccountLedgerDiscrepancy, x.clash y → y.clash x := fun x y hxy =>
    hxy.imp Eq.symm fun ⟨h₁, h₂, h₃⟩ => ⟨h₁.symm, h₃, h₂⟩
  by_cases ha : a = i.accountId
  · rw [if_pos ha]
    refine List.find?_eq_none.mpr fun x hx => ?_
    obtain ⟨j, hj, rfl⟩ := List.mem_map.mp hx
    by_cases hid : j.discrepancyId = i.discrepancyId
    · simp [resolveRow, hid]
    · rw [resolveRow, if_neg hid]
      intro hp
      obtain ⟨haccount, hnone⟩ := of_decide_eq_true hp
      exact hid (congrArg _ (Table.eq_of_clash hsymm hj hi (.inr ⟨haccount.trans ha, hnone, hopen⟩)))
  · rw [if_neg ha]
    refine find_map_of_fixed fun j hj => ?_
    by_cases hid : j.discrepancyId = i.discrepancyId
    · obtain rfl : j = i := discrepancy_unique hi hj hid
      simp [resolveRow, Ne.symm ha]
    · rw [resolveRow, if_neg hid]
      exact ⟨rfl, fun _ => rfl⟩

theorem findLedgerBalance_isSome {d : Database} {a : UUID} {n : Int} :
    (∃ balance, d.findLedgerBalance a n = some balance) ↔ ∃ r ∈ d.ledgerOf a, r.no = n := by
  simp only [findLedgerBalance, Option.map_eq_some_iff]
  constructor
  · intro h
    obtain ⟨_, r, hr, _⟩ := h
    exact ⟨r, List.mem_of_find?_eq_some hr, by simpa using List.find?_some hr⟩
  · intro h
    obtain ⟨r, hr, hno⟩ := h
    cases hf : (d.ledgerOf a).find? (·.no = n) with
    | none => exact absurd hno (by simpa using List.find?_eq_none.mp hf r hr)
    | some q => exact ⟨q.balance, q, rfl, rfl⟩

end Statement.Domain.Database

namespace Statement.Wiring
open Domain Foundation Verification

/-! ### One request -/

namespace ResolveRequest
variable {r : ResolveRequest} {d : Database} {i : CustomerAccountLedgerDiscrepancy}

theorem anchorNo_eq (d : Database) (a : UUID) : anchorNo d a = (outcome d a).start.no := by
  unfold anchorNo outcome
  cases d.findLatestCheckpoint a <;> rfl

/-- What an accepted request leaves. -/
def accepted (r : ResolveRequest) (i : CustomerAccountLedgerDiscrepancy) (throughNo : Int)
    (balance : Numeric) (d : Database) : Database :=
  (d.addCheckpoint r.accountId throughNo balance r.verifiedAt).resolveDiscrepancy i.discrepancyId r.sub
    r.resolvedAt

theorem respond_cases (hi : d.findOpenDiscrepancy r.accountId = some i) :
    (∃ throughNo balance, r.Acceptable d i throughNo balance ∧
        r.respond testClient d = ⟨204, r.accepted i throughNo balance d⟩) ∨
      (∃ f : ResolveFailure, r.respond testClient d = ⟨f.status, d⟩) ∧
        ∀ throughNo balance, ¬ r.Acceptable d i throughNo balance := by
  rcases accept_cases hi with ⟨throughNo, balance, hok, hacceptable⟩ | ⟨⟨f, herror⟩, hnot⟩
  · refine .inl ⟨throughNo, balance, hacceptable, ?_⟩
    rw [respond, handle_ok testClient hi hok, respond_testClient]
    rfl
  · refine .inr ⟨⟨f, ?_⟩, hnot⟩
    rw [respond, handle_error testClient herror]
    rfl

theorem respond_none (hi : d.findOpenDiscrepancy r.accountId = none) :
    r.respond testClient d = ⟨404, d⟩ := by
  have herror : r.accept d = .error .noOpenDiscrepancy := by
    simp only [accept, hi]
  rw [respond, handle_error testClient herror]
  rfl

theorem outcome_accepted (hi : d.findOpenDiscrepancy r.accountId = some i) {throughNo : Int}
    {balance : Numeric} (hpast : anchorNo d r.accountId < throughNo) (a : UUID) :
    outcome (r.accepted i throughNo balance d) a =
      if a = r.accountId then ⟨none, some ⟨throughNo, balance⟩⟩ else outcome d a := by
  obtain ⟨hmem, haccount, hopen⟩ := findOpen_mem hi
  set d' := d.addCheckpoint r.accountId throughNo balance r.verifiedAt with hd'
  have hbelow : ∀ c, d.findLatestCheckpoint r.accountId = some c → c.throughNo < throughNo := by
    intro c hc
    simpa [anchorNo, hc] using hpast
  have hcheckpoint := outcome_addCheckpoint balance r.verifiedAt hbelow a
  have hfind := Database.findOpenDiscrepancy_resolve (d := d') hmem hopen r.sub r.resolvedAt a
  have hlatest : (r.accepted i throughNo balance d).findLatestCheckpoint a = d'.findLatestCheckpoint a := rfl
  have hincident : (r.accepted i throughNo balance d).findOpenDiscrepancy a =
      if a = r.accountId then none else d.findOpenDiscrepancy a := haccount ▸ hfind
  rw [outcome, hlatest, hincident]
  by_cases ha : a = r.accountId
  · rw [if_pos ha] at hcheckpoint ⊢
    rw [if_pos ha, Option.map_none]
    exact congrArg (Outcome.mk none) (congrArg Outcome.checkpoint hcheckpoint)
  · rw [if_neg ha] at hcheckpoint ⊢
    rw [if_neg ha]
    exact congrArg (Outcome.mk _) (congrArg Outcome.checkpoint hcheckpoint)

end ResolveRequest

/-- Resolving an incident leaves the rows of the other accounts. -/
theorem accepted_sameRows {r : ResolveRequest} {d : Database} {i : CustomerAccountLedgerDiscrepancy}
    {throughNo : Int} {balance : Numeric} {a : UUID} (hi : d.findOpenDiscrepancy r.accountId = some i)
    (ha : a ≠ r.accountId) : SameRows a d (r.accepted i throughNo balance d) := by
  obtain ⟨hmem, haccount, _⟩ := ResolveRequest.findOpen_mem hi
  refine ⟨Table.insertOrIgnore_filter _ (decide_eq_false (Ne.symm ha)), ?_⟩
  refine Database.filter_map_of_fixed fun j hj => ?_
  by_cases hid : j.discrepancyId = i.discrepancyId
  · obtain rfl : j = i := Database.discrepancy_unique hmem hj hid
    simp [Database.resolveRow, haccount, Ne.symm ha]
  · rw [Database.resolveRow, if_neg hid]
    exact ⟨rfl, fun _ => rfl⟩

/-! ### A run of requests -/

inductive QuarantineStep where
  | verify (run : RunInput)
  | resolve (r : ResolveRequest)
  /-- A ledger row of any content, numbered above the account's other rows. -/
  | append (row : CustomerAccountLedger)

/-- What a step leaves; `none` when it cannot be taken. -/
def QuarantineStep.next (d : Database) : QuarantineStep → Option Database
  | .verify run => if run.scan.Perm d.customerAccount.rows then some (run.rerun d) else none
  | .resolve r => some (r.respond testClient d).committed
  | .append row =>
    if row.no < 2 ^ 63 ∧ ∀ q ∈ d.ledgerOf row.accountId, q.no < row.no then
      (d.customerAccountLedger.insert row).map fun ledger => { d with customerAccountLedger := ledger }
    else none

/-- Nothing is verified yet; the numbers fit their column. -/
structure Unverified (d : Database) : Prop where
  checkpoints : d.customerAccountLedgerVerified.rows = []
  incidents : d.customerAccountLedgerDiscrepancy.rows = []
  inRange : ∀ r ∈ d.customerAccountLedger.rows, r.no < 2 ^ 63

def QuarantineReachable (d : Database) : Prop :=
  ∃ (d₀ : Database) (steps : List QuarantineStep), Unverified d₀ ∧ steps.foldlM QuarantineStep.next d₀ = some d

structure Quarantined (d : Database) : Prop where
  consistent : ∀ a, (outcome d a).Consistent (d.ledgerOf a)
  inRange : ∀ r ∈ d.customerAccountLedger.rows, r.no < 2 ^ 63

namespace Quarantined
variable {d d' : Database}

theorem start (h : Unverified d) : Quarantined d := by
  refine ⟨fun a => ?_, h.inRange⟩
  have houtcome : outcome d a = ⟨none, none⟩ := by
    simp [outcome, Database.findOpenDiscrepancy, Database.findLatestCheckpoint, h.checkpoints, h.incidents,
      orderBy]
  rw [houtcome]
  exact Outcome.consistent_idle le_rfl rfl

theorem verify (h : Quarantined d) {run : RunInput} (hscan : run.scan.Perm d.customerAccount.rows) :
    Quarantined (run.rerun d) := by
  rcases run_cases hscan with ⟨_, hnone⟩ | ⟨d', hd', hadvanced⟩
  · rw [RunInput.rerun, hnone]
    exact h
  · rw [RunInput.rerun, hd', Option.getD_some]
    refine ⟨fun a => ?_, hadvanced.untouched.ledger ▸ h.inRange⟩
    rw [Database.ledgerOf_congr hadvanced.untouched.ledger]
    by_cases ha : a ∈ picked d run.params run.scan
    · exact (h.consistent a).advance (ledgerOf_distinct d a) (picked_unfinished ha).1
        (hadvanced.advances a ha)
    · rw [hadvanced.others a ha]
      exact h.consistent a

theorem resolve (h : Quarantined d) (r : ResolveRequest) :
    Quarantined (r.respond testClient d).committed := by
  cases hi : d.findOpenDiscrepancy r.accountId with
  | none =>
    rw [ResolveRequest.respond_none hi]
    exact h
  | some i =>
    rcases ResolveRequest.respond_cases hi with ⟨throughNo, balance, hacceptable, hrespond⟩ | ⟨⟨f, hf⟩, _⟩
    · rw [hrespond]
      refine ⟨fun a => ?_, h.inRange⟩
      have hledger : (r.accepted i throughNo balance d).ledgerOf a = d.ledgerOf a := rfl
      rw [hledger, ResolveRequest.outcome_accepted hi hacceptable.past]
      by_cases ha : a = r.accountId
      · rw [if_pos ha]
        have hpast := hacceptable.past
        rw [ResolveRequest.anchorNo_eq] at hpast
        exact Outcome.consistent_idle ((h.consistent r.accountId).nonneg.trans_lt hpast).le rfl
      · rw [if_neg ha]
        exact h.consistent a
    · rw [hf]
      exact h

theorem append (h : Quarantined d) {row : CustomerAccountLedger} (hrange : row.no < 2 ^ 63)
    (hinsert : d.customerAccountLedger.insert row = some d'.customerAccountLedger)
    (houtcome : ∀ a, outcome d' a = outcome d a) : Quarantined d' := by
  refine ⟨fun a => ?_, fun r hr => ?_⟩
  · rw [houtcome, Database.ledgerOf_insert hinsert]
    exact (h.consistent a).mono (List.subset_append_left _ _)
  · rw [(Table.insert_some hinsert).2] at hr
    rcases List.mem_append.mp hr with hr | hr
    · exact h.inRange r hr
    · exact List.mem_singleton.mp hr ▸ hrange

/-- What one step preserves. -/
theorem next (h : Quarantined d) {step : QuarantineStep} (hstep : step.next d = some d') :
    Quarantined d' := by
  cases step with
  | verify run =>
    simp only [QuarantineStep.next] at hstep
    split at hstep
    · rename_i hscan
      cases hstep
      exact h.verify hscan
    · cases hstep
  | resolve r =>
    cases hstep
    exact h.resolve r
  | append row =>
    simp only [QuarantineStep.next] at hstep
    split at hstep
    · rename_i hguard
      obtain ⟨ledger, hledger, rfl⟩ := Option.map_eq_some_iff.mp hstep
      exact h.append hguard.1 hledger fun a => rfl
    · cases hstep

/-- What a run preserves. -/
theorem run (h : Quarantined d) {steps : List QuarantineStep}
    (hsteps : steps.foldlM QuarantineStep.next d = some d') : Quarantined d' := by
  induction steps generalizing d with
  | nil =>
    cases hsteps
    exact h
  | cons step steps ih =>
    rw [List.foldlM_cons] at hsteps
    obtain ⟨d₁, h₁, hrest⟩ := Option.bind_eq_some_iff.mp hsteps
    exact ih (h.next h₁) hrest

end Quarantined

theorem QuarantineReachable.quarantined {d : Database} (h : QuarantineReachable d) : Quarantined d := by
  obtain ⟨d₀, steps, hstart, hsteps⟩ := h
  exact (Quarantined.start hstart).run hsteps

/-! ### What holds in every state -/

theorem acceptable_iff {d : Database} (h : Quarantined d) {r : ResolveRequest}
    {i : CustomerAccountLedgerDiscrepancy} {throughNo : Int} :
    (∃ balance, r.Acceptable d i throughNo balance) ↔ r.throughNo i = some throughNo ∧
      ResolveRequest.anchorNo d r.accountId < throughNo ∧ ∃ row ∈ d.ledgerOf r.accountId, row.no = throughNo := by
  constructor
  · intro ⟨balance, hacceptable⟩
    exact ⟨hacceptable.named, hacceptable.past,
      Database.findLedgerBalance_isSome.mp ⟨balance, hacceptable.stored⟩⟩
  · intro ⟨hnamed, hpast, row, hrow, hno⟩
    obtain ⟨balance, hbalance⟩ := Database.findLedgerBalance_isSome.mpr ⟨row, hrow, hno⟩
    exact ⟨balance, hnamed, hpast, hno ▸ h.inRange row (Database.mem_ledgerOf.mp hrow).1, hbalance⟩

/-- Which requests on an open incident answer 204. -/
theorem respond_204_iff {d : Database} (h : Quarantined d) {r : ResolveRequest}
    {i : CustomerAccountLedgerDiscrepancy} (hi : d.findOpenDiscrepancy r.accountId = some i) :
    (r.respond testClient d).status = 204 ↔ ∃ throughNo, r.throughNo i = some throughNo ∧
      ResolveRequest.anchorNo d r.accountId < throughNo ∧ ∃ row ∈ d.ledgerOf r.accountId, row.no = throughNo := by
  rcases ResolveRequest.respond_cases hi with ⟨throughNo, balance, hacceptable, hrespond⟩ | ⟨⟨f, hf⟩, hnot⟩
  · rw [hrespond]
    exact ⟨fun _ => ⟨throughNo, (acceptable_iff h).mp ⟨balance, hacceptable⟩⟩, fun _ => rfl⟩
  · rw [hf]
    refine ⟨fun hstatus => absurd hstatus (ResolveRequest.ResolveFailure.status_ne f), fun hall => ?_⟩
    obtain ⟨throughNo, hall⟩ := hall
    obtain ⟨balance, hacceptable⟩ := (acceptable_iff h).mpr hall
    exact absurd hacceptable (hnot throughNo balance)

/-- What a 204 leaves: nothing open, and the checkpoint where the request put it. -/
theorem respond_204_moves {d : Database} {r : ResolveRequest} {i : CustomerAccountLedgerDiscrepancy}
    (hi : d.findOpenDiscrepancy r.accountId = some i) (hstatus : (r.respond testClient d).status = 204) :
    (r.respond testClient d).committed.findOpenDiscrepancy r.accountId = none ∧
      r.throughNo i = some (ResolveRequest.anchorNo (r.respond testClient d).committed r.accountId) ∧
      ResolveRequest.anchorNo d r.accountId <
        ResolveRequest.anchorNo (r.respond testClient d).committed r.accountId := by
  rcases ResolveRequest.respond_cases hi with ⟨throughNo, balance, hacceptable, hrespond⟩ | ⟨⟨f, hf⟩, _⟩
  · have houtcome : outcome (r.accepted i throughNo balance d) r.accountId =
        ⟨none, some ⟨throughNo, balance⟩⟩ := by
      rw [ResolveRequest.outcome_accepted hi hacceptable.past, if_pos rfl]
    have hanchor : ResolveRequest.anchorNo (r.accepted i throughNo balance d) r.accountId = throughNo := by
      rw [ResolveRequest.anchorNo_eq, houtcome]
      rfl
    rw [hrespond, hanchor]
    exact ⟨Option.map_eq_none_iff.mp (congrArg Outcome.incident houtcome), hacceptable.named, hacceptable.past⟩
  · rw [hf] at hstatus
    exact absurd hstatus (ResolveRequest.ResolveFailure.status_ne f)

/-- The partial unique index: no account has two open incidents. -/
theorem open_le_one (d : Database) (a : UUID) :
    (d.customerAccountLedgerDiscrepancy.rows.filter fun i =>
      i.accountId = a ∧ i.resolvedAt = none).length ≤ 1 := by
  have hdistinct := d.customerAccountLedgerDiscrepancy.distinct.filter
    fun i => i.accountId = a ∧ i.resolvedAt = none
  have hnone : (d.customerAccountLedgerDiscrepancy.rows.filter fun i =>
      i.accountId = a ∧ i.resolvedAt = none).Pairwise fun _ _ => False := by
    refine hdistinct.imp_of_mem fun hi hj hclash => hclash ?_
    obtain ⟨hia, hin⟩ := of_decide_eq_true (List.mem_filter.mp hi).2
    obtain ⟨hja, hjn⟩ := of_decide_eq_true (List.mem_filter.mp hj).2
    exact .inr ⟨hia.trans hja.symm, hin, hjn⟩
  generalize d.customerAccountLedgerDiscrepancy.rows.filter _ = incidents at hnone ⊢
  cases hnone with
  | nil => exact Nat.zero_le 1
  | @cons i rest hhead _ =>
    cases rest with
    | nil => exact le_rfl
    | cons j rest => exact absurd (hhead j List.mem_cons_self) id

section
variable {d : Database} {r : ResolveRequest} {i : CustomerAccountLedgerDiscrepancy}

theorem outcome_incident {a : UUID} (hi : d.findOpenDiscrepancy a = some i) : (outcome d a).incident =
    some ⟨i.no, i.kind, i.prevNo, i.expectedBalance, i.actualBalance⟩ := by
  rw [outcome, hi]
  rfl

/-- An incident that names its row is lifted without a choice. -/
theorem default_accepted (h : Quarantined d) (hi : d.findOpenDiscrepancy r.accountId = some i)
    (hkind : i.kind ≠ .anchorBalance) (hdefault : r.resolution.throughNo = none) :
    (r.respond testClient d).status = 204 := by
  obtain ⟨hlt, row, hrow, hno⟩ := (h.consistent r.accountId).named _ (outcome_incident hi) hkind
  refine (respond_204_iff h hi).mpr ⟨i.no, ?_, ResolveRequest.anchorNo_eq d _ ▸ hlt, row, hrow, hno⟩
  rw [ResolveRequest.throughNo, hdefault]
  exact if_neg hkind

/-- Every incident can be lifted by a choice. -/
theorem choice_accepted (h : Quarantined d) {a : UUID} (hi : d.findOpenDiscrepancy a = some i) :
    ∃ row ∈ d.ledgerOf a, 1 ≤ row.no ∧ ∀ r : ResolveRequest, r.accountId = a →
      r.resolution.throughNo = some row.no → (r.respond testClient d).status = 204 := by
  have hconsistent := h.consistent a
  obtain ⟨row, hrow, hlt⟩ := hconsistent.past _ (outcome_incident hi)
  have hnonneg := hconsistent.nonneg
  refine ⟨row, hrow, by omega, fun r hr hchosen => ?_⟩
  subst hr
  refine (respond_204_iff h hi).mpr ⟨row.no, ?_, ResolveRequest.anchorNo_eq d _ ▸ hlt, row, hrow, rfl⟩
  rw [ResolveRequest.throughNo, hchosen]

end

/-- **Quarantine can always be lifted**, and lifting it moves the account on. -/
theorem quarantine_lifts (d : Database) (h : QuarantineReachable d) :
    (∀ a, (d.customerAccountLedgerDiscrepancy.rows.filter fun i =>
      i.accountId = a ∧ i.resolvedAt = none).length ≤ 1) ∧
    ∀ a i, d.findOpenDiscrepancy a = some i →
      i.prevNo = ResolveRequest.anchorNo d a ∧
      (∀ run : RunInput, run.scan.Perm d.customerAccount.rows → SameRows a d (run.rerun d)) ∧
      (∀ r : ResolveRequest, r.accountId = a →
        ((r.respond testClient d).status = 204 ↔ ∃ throughNo, r.throughNo i = some throughNo ∧
          ResolveRequest.anchorNo d a < throughNo ∧ ∃ row ∈ d.ledgerOf a, row.no = throughNo) ∧
        ((r.respond testClient d).status = 204 →
          (r.respond testClient d).committed.findOpenDiscrepancy a = none ∧
          r.throughNo i = some (ResolveRequest.anchorNo (r.respond testClient d).committed a) ∧
          ResolveRequest.anchorNo d a < ResolveRequest.anchorNo (r.respond testClient d).committed a) ∧
        (i.kind ≠ .anchorBalance → r.resolution.throughNo = none →
          (r.respond testClient d).status = 204)) ∧
      (i.kind = .anchorBalance → ∃ row ∈ d.ledgerOf a, 1 ≤ row.no ∧ ∀ r : ResolveRequest,
        r.accountId = a → r.resolution.throughNo = some row.no →
          (r.respond testClient d).status = 204) := by
  have hq := h.quarantined
  refine ⟨open_le_one d, fun a i hi => ⟨?_, fun run hscan => ?_, fun r hr => ?_, fun _ => choice_accepted hq hi⟩⟩
  · rw [ResolveRequest.anchorNo_eq]
    exact (hq.consistent a).prev _ (outcome_incident hi)
  · refine rerun_sameRows hscan ?_
    rw [hi]
    exact Option.some_ne_none i
  · subst hr
    exact ⟨respond_204_iff hq hi, respond_204_moves hi, default_accepted hq hi⟩

/-! ### A run -/

/-- Row 2 is missing; a run has found the gap. -/
def gapSteps : List QuarantineStep :=
  [.append (sampleRow 3 five five 3),
    .verify ⟨⟨100, 10, 0, 5⟩, [.create 1 2 .eur none 3 0], fun _ => 7⟩]

theorem gap_lifted : ∃ d i, d.findOpenDiscrepancy 1 = some i ∧ i.no = 3 ∧ i.prevNo = 1 ∧
    (ResolveRequest.acceptRow.respond testClient d).status = 204 := by
  have hrun : (gapSteps.foldlM QuarantineStep.next
      (sampleLedger [sampleRow 1 .zero .zero 1] (by decide))).map (fun d =>
        (d.findOpenDiscrepancy 1).map fun i => (i.no, i.kind, i.prevNo)) =
      some (some (3, .gap, 1)) := by decide
  obtain ⟨d, hd, hfound⟩ := Option.map_eq_some_iff.mp hrun
  obtain ⟨i, hi, hfields⟩ := Option.map_eq_some_iff.mp hfound
  obtain ⟨hno, hfields⟩ := Prod.mk.inj hfields
  obtain ⟨hkind, hprev⟩ := Prod.mk.inj hfields
  have hstart : Unverified (sampleLedger [sampleRow 1 .zero .zero 1] (by decide)) :=
    ⟨rfl, rfl, by decide⟩
  obtain ⟨_, hopen⟩ := quarantine_lifts d ⟨_, gapSteps, hstart, hd⟩
  obtain ⟨_, _, hrequests, _⟩ := hopen 1 i hi
  refine ⟨d, i, hi, hno, hprev, (hrequests ResolveRequest.acceptRow rfl).2.2 ?_ rfl⟩
  rw [hkind]
  decide

end Statement.Wiring
