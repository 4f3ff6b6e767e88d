import Statement.System.Deletion
import Statement.Verification.Recording

/-! What the verifier says of deleted rows.

However it cuts the ledger into windows, it records one incident, at the first row
left after the first hole. That a hole took amounts along shows in the incident's
balances, but the wrong way round: expected less actual is what the missing rows
summed to with its sign turned. As everywhere, a break whose expected balance does
not fit its column is never recorded. -/
namespace Statement.System
open Domain Foundation Verification

/-- The first break on an account's walk can be recorded. -/
def BreakFits (d : Database) (a : UUID) : Prop :=
  ∀ previous row kind, walk check position (outcome d a).start ((outcome d a).rest (d.ledgerOf a)) =
      .broken previous row kind → kind = .balance ∨ kind = .gapBalance →
    (previous.balance.cents + row.amount.cents).natAbs < 10 ^ 16

theorem breakFits_iff {d : Database} {a : UUID} :
    comesTo d a ≠ none ↔ (d.findOpenDiscrepancy a = none → BreakFits d a) := by
  cases hopen : d.findOpenDiscrepancy a with
  | none =>
    rw [Ne, comesTo_eq_none hopen]
    constructor
    · intro h _ previous row kind hwalk hkind
      by_contra hbig
      exact h ⟨previous, row, kind, hwalk, hkind, not_lt.mp hbig⟩
    · rintro h ⟨previous, row, kind, hwalk, hkind, hbig⟩
      exact absurd (h rfl previous row kind hwalk hkind) (not_lt.mpr hbig)
  | some i =>
    have hfinished : ¬ (outcome d a).Unfinished (d.ledgerOf a) := by
      rintro ⟨hidle, _⟩
      rw [outcome, hopen] at hidle
      cases hidle
    rw [comesTo, Outcome.eventual_of_finished hfinished]
    simp

/-- A run finds nothing to do where nothing is left. -/
theorem rerun_finished {i : RunInput} {d : Database} (hscan : i.scan.Perm d.customerAccount.rows)
    (h : Finished d) : i.rerun d = d := by
  rw [RunInput.rerun]
  cases hrun : i.verify d with
  | none => rfl
  | some d' =>
    have hrecord := RunInput.verify_some hrun
    rw [finalSelect_of_finished hscan h] at hrecord
    exact (Option.some.inj hrecord).symm

namespace Deletion
variable {d : Database} {a : UUID} (D : Deletion d a)

/-- One more incident, where the first hole ends, and a checkpoint where it begins. -/
structure Located (d' : Database) : Prop where
  incident : ∃ i, incidentsOf d' a = incidentsOf d a ++ [i] ∧ i.resolvedAt = none ∧
    i.no = D.survivor.no ∧ i.prevNo = D.first - 1 ∧ i.kind = D.kind
  checkpoint : (outcome d' a).checkpoint =
    if throughNo (d.findLatestCheckpoint a) < D.first - 1 then
      some ⟨D.first - 1, balanceAt D.rows (D.first - 1)⟩
    else (outcome d a).checkpoint

/-- Whatever the windows, and whatever else is verified in between, the deletion is
located in the end. -/
def Locates : Prop :=
  ∀ (accountsPerRun rowsPerAccount : Nat) (inputs : Nat → RunInput), 1 ≤ accountsPerRun →
    1 ≤ rowsPerAccount →
    (∀ n, (inputs n).Fair accountsPerRun rowsPerAccount (after inputs d n)) →
    ∃ N, ∀ n, N ≤ n → D.Located (after inputs d n)

section
variable {accountsPerRun rowsPerAccount : Nat} {inputs : Nat → RunInput}

/-- What is open for the account, at any time, is what verifying it comes to. -/
theorem incident_of_open (hreads : ∀ n, (inputs n).Reads (after inputs d n)) {n : Nat}
    {i : CustomerAccountLedgerDiscrepancy} (hi : (after inputs d n).findOpenDiscrepancy a = some i) :
    incidentOf D.before D.survivor D.kind =
        some ⟨i.no, i.kind, i.prevNo, i.expectedBalance, i.actualBalance⟩ ∧
      (outcome (after inputs d n) a).checkpoint = (outcome d a).bank D.before := by
  have hincident : (outcome (after inputs d n) a).incident =
      some ⟨i.no, i.kind, i.prevNo, i.expectedBalance, i.actualBalance⟩ := by rw [outcome, hi]; rfl
  have hfinished : ¬ (outcome (after inputs d n) a).Unfinished ((after inputs d n).ledgerOf a) := by
    rintro ⟨hidle, _⟩
    rw [hincident] at hidle
    cases hidle
  have hcomes := (after_comesTo hreads n).2 a
  rw [D.comesTo_eq, comesTo, Outcome.eventual_of_finished hfinished] at hcomes
  obtain ⟨j, hj, houtcome⟩ := Option.map_eq_some_iff.mp hcomes.symm
  rw [← houtcome] at hincident ⊢
  cases hincident
  exact ⟨hj, rfl⟩

theorem located_of_open (hr : 1 ≤ rowsPerAccount)
    (hfair : ∀ n, (inputs n).Fair accountsPerRun rowsPerAccount (after inputs d n)) {n : Nat}
    {i : CustomerAccountLedgerDiscrepancy} (hi : (after inputs d n).findOpenDiscrepancy a = some i) :
    D.Located (after inputs d n) := by
  obtain ⟨hincident, hcheckpoint⟩ := D.incident_of_open (fun n => (hfair n).reads hr) hi
  obtain ⟨hno, hkind, hprev⟩ := incidentOf_some hincident
  have hopen := List.find?_some hi
  refine ⟨⟨i, (after_opens inputs d n).one D.idle hi, (of_decide_eq_true hopen).2, hno, hprev, hkind⟩, ?_⟩
  rw [hcheckpoint, throughNo_eq]
  rfl

include D in
/-- Where every break can be recorded, an incident is open from some run on. -/
theorem exists_open (ha : 1 ≤ accountsPerRun) (hr : 1 ≤ rowsPerAccount)
    (hfair : ∀ n, (inputs n).Fair accountsPerRun rowsPerAccount (after inputs d n))
    (haccount : ∃ x ∈ d.customerAccount.rows, x.id = a)
    (h : ∀ x ∈ d.customerAccount.rows, comesTo d x.id ≠ none) :
    ∃ N, ∀ n, N ≤ n → ∃ i, (after inputs d n).findOpenDiscrepancy a = some i := by
  obtain ⟨N, hN⟩ := exists_finished ha hr hfair h
  refine ⟨N, fun n hn => ?_⟩
  have hsame : after inputs d n = after inputs d N := by
    induction n, hn using Nat.le_induction with
    | base => rfl
    | succ n _ ih =>
      rw [after, ← ih]
      exact rerun_finished (hfair n).scan (ih ▸ hN)
  obtain ⟨x, hx, rfl⟩ := haccount
  obtain ⟨hu, hc⟩ := after_comesTo (fun n => (hfair n).reads hr) N
  have hcomes := hc x.id
  rw [D.comesTo_eq, comesTo, Outcome.eventual_of_finished (hN x (hu.account ▸ hx))] at hcomes
  obtain ⟨i, _, houtcome⟩ := Option.map_eq_some_iff.mp hcomes.symm
  have hincident : (outcome (after inputs d N) x.id).incident = some i := by rw [← houtcome]
  obtain ⟨j, hj, _⟩ := Option.map_eq_some_iff.mp hincident
  exact ⟨j, hsame ▸ hj⟩

end

/-- Nothing is ever located where some break cannot be recorded. -/
theorem not_locates {x : CustomerAccount} (hx : x ∈ d.customerAccount.rows) (h : comesTo d x.id = none) :
    ¬ D.Locates := by
  intro hlocates
  obtain ⟨accountsPerRun, rowsPerAccount, inputs, ha, hr, hfair, hstuck⟩ := exists_stuck hx h
  obtain ⟨N, hN⟩ := hlocates accountsPerRun rowsPerAccount inputs ha hr hfair
  obtain ⟨i, hi, _⟩ := (hN N le_rfl).incident
  rw [hstuck] at hi
  simpa using congrArg List.length hi

/-- **Deleted rows are located and classified** exactly where the expected balance
at their break fits, and that of every other account's. -/
theorem deleted_rows_located {x : CustomerAccount} (hx : x ∈ d.customerAccount.rows)
    (D : Deletion d x.id) : D.Locates ↔ D.Fits ∧ ∀ y ∈ d.customerAccount.rows, y.id ≠ x.id →
      d.findOpenDiscrepancy y.id = none → BreakFits d y.id := by
  constructor
  · intro hlocates
    have hcomes : ∀ y ∈ d.customerAccount.rows, comesTo d y.id ≠ none := fun y hy hnone =>
      D.not_locates hy hnone hlocates
    exact ⟨D.comesTo_ne_none.mp (hcomes x hx), fun y hy _ => breakFits_iff.mp (hcomes y hy)⟩
  · rintro ⟨hfits, hothers⟩ accountsPerRun rowsPerAccount inputs ha hr hfair
    have hcomes : ∀ y ∈ d.customerAccount.rows, comesTo d y.id ≠ none := by
      intro y hy
      by_cases hyx : y.id = x.id
      · rw [hyx]
        exact D.comesTo_ne_none.mpr hfits
      · exact breakFits_iff.mpr (hothers y hy hyx)
    obtain ⟨N, hN⟩ := D.exists_open ha hr hfair ⟨x, hx, rfl⟩ hcomes
    refine ⟨N, fun n hn => ?_⟩
    obtain ⟨i, hi⟩ := hN n hn
    exact D.located_of_open hr hfair hi

/-- The missing amounts can be read off an incident as documented: expected less
actual is what they summed to. -/
def Documented (i : CustomerAccountLedgerDiscrepancy) : Prop :=
  ∃ e, i.expectedBalance = some e ∧ e.cents - i.actualBalance.cents = D.missing

end Deletion

/-! ### Two deletions -/

/-- Row 3 of four is deleted, and its five with it. -/
def shortened : Database :=
  sampleLedger [sampleRow 1 .zero .zero 1, sampleRow 2 five five 2, sampleRow 4 five fifteen 4] (by decide)

theorem shortened_journal : LedgerJournal [sampleRow 1 .zero .zero 1, sampleRow 2 five five 2,
    sampleRow 3 five ten 3, sampleRow 4 five fifteen 4] :=
  ⟨⟨_, rfl, rfl, rfl⟩, .cons_cons ⟨rfl, rfl⟩ (.cons_cons ⟨rfl, rfl⟩ (.cons_cons ⟨rfl, rfl⟩ (.singleton _)))⟩

def shortening : Deletion shortened 1 where
  rows := [sampleRow 1 .zero .zero 1, sampleRow 2 five five 2, sampleRow 3 five ten 3,
    sampleRow 4 five fifteen 4]
  deleted := {3}
  journal := shortened_journal
  stored := .refl _
  idle := rfl
  checkpoint := nofun
  nonempty := Finset.singleton_nonempty 3
  past := by decide
  inside := by decide

theorem shortening_located : shortening.Locates := by
  have hx : CustomerAccount.create 1 2 .eur none 3 0 ∈ shortened.customerAccount.rows :=
    List.mem_singleton.mpr rfl
  refine (Deletion.deleted_rows_located hx shortening).mpr ⟨.inr (by decide), fun y hy hne => ?_⟩
  rw [List.mem_singleton.mp hy] at hne
  exact absurd rfl hne

def most : Numeric := ⟨10 ^ 16 - 1, by decide⟩

def cent : Numeric := ⟨1, by decide⟩

def allOut : Numeric := ⟨-(10 ^ 16 - 1), by decide⟩

/-- The row that took everything out is deleted. -/
def refilled : Database := sampleLedger [sampleRow 1 most most 1, sampleRow 3 cent cent 3] (by decide)

theorem refilled_journal :
    LedgerJournal [sampleRow 1 most most 1, sampleRow 2 allOut .zero 2, sampleRow 3 cent cent 3] :=
  ⟨⟨_, rfl, rfl, rfl⟩, .cons_cons ⟨rfl, rfl⟩ (.cons_cons ⟨rfl, rfl⟩ (.singleton _))⟩

def refilling : Deletion refilled 1 where
  rows := [sampleRow 1 most most 1, sampleRow 2 allOut .zero 2, sampleRow 3 cent cent 3]
  deleted := {2}
  journal := refilled_journal
  stored := .refl _
  idle := rfl
  checkpoint := nofun
  nonempty := Finset.singleton_nonempty 2
  past := by decide
  inside := by decide

theorem refilling_never_located : ¬ refilling.Locates :=
  refilling.not_locates (List.mem_singleton.mpr rfl) (by decide)

end Statement.System
