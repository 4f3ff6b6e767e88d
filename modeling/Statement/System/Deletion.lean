import Statement.System.Sound
import Statement.Verification.Incremental

/-! A valid ledger that has lost rows.

Rows are numbered from 1 and every balance adds the row's amount to the one
before. Once some are gone, a walk from the checkpoint holds up to the row before
the first that is missing, and breaks at the first that is left after it: by its
number always, and by its balance exactly when the amounts in between do not
cancel out (`Deletion.walk_eq`). -/
namespace Statement.System
open Domain Foundation Verification

/-- The balance after `k` rows; none before the first. -/
def balanceAt (rows : List CustomerAccountLedger) (k : Int) : Numeric :=
  ((rows.find? (·.no = k)).map (·.balance)).getD .zero

section
variable {rows : List CustomerAccountLedger} (h : LedgerJournal rows)
include h

theorem balanceAt_no {r : CustomerAccountLedger} (hr : r ∈ rows) : balanceAt rows r.no = r.balance := by
  cases hf : rows.find? (·.no = r.no) with
  | none =>
    have hne := List.find?_eq_none.mp hf r hr
    simp at hne
  | some q =>
    have hq : q.no = r.no := by simpa using List.find?_some hf
    rw [balanceAt, hf, h.no_injective (List.mem_of_find?_eq_some hf) hr hq]
    rfl

/-- The balance after the first rows is the sum of their amounts. -/
theorem balanceAt_length {pre post : List CustomerAccountLedger} (hrows : rows = pre ++ post) :
    (balanceAt rows pre.length).cents = (pre.map (·.amount.cents)).sum := by
  rcases List.eq_nil_or_concat pre with rfl | ⟨pre, r, rfl⟩
  · have hnone : rows.find? (·.no = 0) = none := by
      refine List.find?_eq_none.mpr fun r hr => ?_
      have := h.one_le hr
      simpa using (by omega : r.no ≠ 0)
    rw [balanceAt, List.length_nil, Nat.cast_zero, hnone]
    rfl
  · rw [List.concat_eq_append] at hrows ⊢
    rw [List.append_assoc] at hrows
    obtain ⟨hno, hbalance⟩ := h.at_place hrows
    have hlength : ((pre ++ [r]).length : Int) = r.no := by
      rw [hno, List.length_append]
      simp
    rw [hlength, balanceAt_no h (hrows ▸ by simp), hbalance]

/-- A walk from a row of a valid ledger reaches every later one. -/
theorem walk_valid {c : Int} (hc : 0 ≤ c) {pre post : List CustomerAccountLedger}
    (hrows : rows = pre ++ post) (hle : c ≤ pre.length) :
    walk check position ⟨c, balanceAt rows c⟩ (pre.filter (c ≤ ·.no)) =
      .clean ⟨pre.length, balanceAt rows pre.length⟩ := by
  induction pre using List.reverseRecOn generalizing post with
  | nil =>
    obtain rfl : c = 0 := le_antisymm hle hc
    rfl
  | append_singleton pre r ih =>
    rw [List.append_assoc] at hrows
    obtain ⟨hno, hbalance⟩ := h.at_place hrows
    have hr : r ∈ rows := hrows ▸ by simp
    have hlength : ((pre ++ [r]).length : Int) = r.no := by
      rw [hno, List.length_append]
      simp
    have hlast : (⟨(pre ++ [r]).length, balanceAt rows (pre ++ [r]).length⟩ : Position) = position r := by
      rw [hlength, balanceAt_no h hr, position]
    rw [hlength] at hle
    rw [hlast, List.filter_append, List.filter_cons, if_pos (by simpa using hle), List.filter_nil]
    by_cases hpre : c ≤ pre.length
    · have hcheck : check ⟨pre.length, balanceAt rows pre.length⟩ r = none := by
        refine (check_eq_none (show (pre.length : Int) ≤ r.no by omega)).mpr (.inr ⟨hno, ?_⟩)
        rw [hbalance, balanceAt_length h hrows, List.map_append, List.sum_append]
        simp
      rw [walk_append, ih hrows hpre]
      exact walk_cons_ok _ hcheck
    · -- the walk starts at `r` itself
      have hcr : c = r.no := by omega
      have hnone : pre.filter (c ≤ ·.no) = [] := by
        refine List.filter_eq_nil_iff.mpr fun q hq => ?_
        have := (h.no_prefix hrows).1 q hq
        simpa using (by omega : q.no < c)
      rw [hnone, List.nil_append, hcr, balanceAt_no h hr]
      exact walk_cons_ok _ (check_position r)

end

/-- The account's stored rows are those of a valid ledger but for some numbers, all
past the checkpoint and before the last. -/
structure Deletion (d : Database) (a : UUID) where
  rows : List CustomerAccountLedger
  deleted : Finset Int
  journal : LedgerJournal rows
  stored : (d.ledgerOf a).Perm (rows.filter (·.no ∉ deleted))
  idle : d.findOpenDiscrepancy a = none
  checkpoint : ∀ c, d.findLatestCheckpoint a = some c →
    ∃ r ∈ rows, r.no = c.throughNo ∧ r.balance = c.balance
  nonempty : deleted.Nonempty
  past : ∀ k ∈ deleted, throughNo (d.findLatestCheckpoint a) < k
  inside : ∀ k ∈ deleted, k < rows.length

namespace Deletion
variable {d : Database} {a : UUID} (D : Deletion d a)

def first : Int := D.deleted.min' D.nonempty

def surviving : List CustomerAccountLedger := D.rows.filter (·.no ∉ D.deleted)

theorem first_mem : D.first ∈ D.deleted := D.deleted.min'_mem D.nonempty

theorem first_le {k : Int} (hk : k ∈ D.deleted) : D.first ≤ k := D.deleted.min'_le k hk

/-- The last row is left. -/
theorem exists_survivor : (D.surviving.find? (D.first < ·.no)).isSome := by
  obtain ⟨pre, last, hrows⟩ := (List.eq_nil_or_concat _).resolve_left D.journal.ne_nil
  rw [List.concat_eq_append] at hrows
  have hlast : last.no = D.rows.length := by
    rw [(D.journal.at_place hrows).1, hrows, List.length_append]
    simp
  have hfirst := D.inside _ D.first_mem
  refine List.find?_isSome.mpr ⟨last, List.mem_filter.mpr ⟨hrows ▸ by simp, ?_⟩, ?_⟩
  · exact decide_eq_true fun hk => absurd (D.inside _ hk) (by omega)
  · exact decide_eq_true (by omega)

/-- The first row left after the first that is missing. -/
def survivor : CustomerAccountLedger := (D.surviving.find? (D.first < ·.no)).get D.exists_survivor

/-- What the rows between them summed to. -/
def missing : Int :=
  ((D.rows.filter fun r => D.first ≤ r.no ∧ r.no < D.survivor.no).map (·.amount.cents)).sum

def kind : LedgerDiscrepancyKind := if D.missing = 0 then .gap else .gapBalance

def before : Position := ⟨D.first - 1, balanceAt D.rows (D.first - 1)⟩

theorem survivor_spec : D.survivor ∈ D.surviving ∧ D.first < D.survivor.no ∧
    ∀ r ∈ D.rows, D.first ≤ r.no → r.no < D.survivor.no → r.no ∈ D.deleted := by
  have hfind : D.surviving.find? (D.first < ·.no) = some D.survivor := (Option.some_get _).symm
  obtain ⟨hlt, pre, post, hsplit, hpre⟩ := List.find?_eq_some_iff_append.mp hfind
  refine ⟨List.mem_of_find?_eq_some hfind, by simpa using hlt, fun r hr hle hrs => ?_⟩
  by_contra hkept
  have hne : r.no ≠ D.first := fun he => hkept (he ▸ D.first_mem)
  have hmem : r ∈ D.surviving := List.mem_filter.mpr ⟨hr, by simpa using hkept⟩
  have hsorted : D.surviving.Pairwise fun q r => q.no < r.no := D.journal.sorted.filter _
  rw [hsplit] at hmem hsorted
  rcases List.mem_append.mp hmem with hmem | hmem
  · have := hpre r hmem
    simp only [Bool.not_eq_eq_eq_not, Bool.not_true, decide_eq_false_iff_not] at this
    omega
  · rcases List.mem_cons.mp hmem with rfl | hmem
    · exact absurd hrs (lt_irrefl _)
    · have := (List.pairwise_cons.mp (List.pairwise_append.mp hsorted).2.1).1 r hmem
      omega

include D in
theorem throughNo_nonneg : 0 ≤ throughNo (d.findLatestCheckpoint a) := by
  cases hc : d.findLatestCheckpoint a with
  | none => exact le_rfl
  | some c =>
    obtain ⟨r, hr, hno, _⟩ := D.checkpoint c hc
    have := D.journal.one_le hr
    show 0 ≤ c.throughNo
    omega

/-- The valid ledger, cut where the first hole begins and ends. -/
theorem split : ∃ pre mid post, D.rows = pre ++ mid ++ D.survivor :: post ∧
    (pre.length : Int) = D.first - 1 ∧ (∀ r ∈ pre, r.no ∉ D.deleted) ∧ (∀ r ∈ mid, r.no ∈ D.deleted) ∧
    D.missing = (mid.map (·.amount.cents)).sum := by
  obtain ⟨hmem, hlt, hhole⟩ := D.survivor_spec
  have hpositive := lt_of_le_of_lt D.throughNo_nonneg (D.past _ D.first_mem)
  obtain ⟨init, post, hinit⟩ := List.append_of_mem (List.mem_filter.mp hmem).1
  have hsurvivor := (D.journal.at_place hinit).1
  obtain ⟨i, hi⟩ := Int.eq_ofNat_of_zero_le (show 0 ≤ D.first - 1 by omega)
  have hlength : (init.take i).length = i := by
    have := (D.journal.no_prefix hinit).2 _ List.mem_cons_self
    exact List.length_take_of_le (by omega)
  have hcut : D.rows = init.take i ++ init.drop i ++ D.survivor :: post := by
    rw [List.take_append_drop, hinit]
  obtain ⟨hpre, hlater⟩ := D.journal.no_prefix (hcut.trans (List.append_assoc _ _ _))
  rw [hlength] at hpre hlater
  refine ⟨init.take i, init.drop i, post, hcut, by omega, fun r hr hk => ?_, fun r hr => ?_, ?_⟩
  · have := D.first_le hk
    have := hpre r hr
    omega
  · have hafter := hlater r (List.mem_append_left _ hr)
    have hbefore := (D.journal.no_prefix hinit).1 r (List.mem_of_mem_drop hr)
    exact hhole r (hinit ▸ List.mem_append_left _ (List.mem_of_mem_drop hr)) (by omega) (by omega)
  · rw [missing, D.journal.filter_between hcut (by omega)]

/-- The checkpoint's balance is that of the valid ledger. -/
theorem start_eq : (outcome d a).start =
    ⟨throughNo (d.findLatestCheckpoint a), balanceAt D.rows (throughNo (d.findLatestCheckpoint a))⟩ := by
  rw [Outcome.start, outcome]
  cases hc : d.findLatestCheckpoint a with
  | none =>
    have hnone : balanceAt D.rows 0 = .zero :=
      Numeric.ext (balanceAt_length D.journal (List.nil_append D.rows).symm)
    exact congrArg (Position.mk 0) hnone.symm
  | some c =>
    obtain ⟨r, hr, hno, hbalance⟩ := D.checkpoint c hc
    show (⟨c.throughNo, c.balance⟩ : Position) = ⟨c.throughNo, balanceAt D.rows c.throughNo⟩
    rw [← hno, balanceAt_no D.journal hr, hbalance]

/-- What is left to walk: the surviving rows from the checkpoint on. -/
theorem rest_eq : (outcome d a).rest (d.ledgerOf a) =
    D.surviving.filter (throughNo (d.findLatestCheckpoint a) ≤ ·.no) := by
  have hno : (outcome d a).start.no = throughNo (d.findLatestCheckpoint a) := (throughNo_eq d a).symm
  refine List.Perm.eq_of_pairwise (fun q r _ _ hqr hrq => absurd hqr (lt_asymm hrq))
    (Outcome.rest_sorted (ledgerOf_distinct d a)) ((D.journal.sorted.filter _).filter _) ?_
  rw [Outcome.rest, hno]
  exact (orderBy_perm _ _).trans (D.stored.filter _)

/-- Across the hole a balance takes the missing amounts along. -/
theorem survivor_balance : D.survivor.balance.cents =
    D.before.balance.cents + D.missing + D.survivor.amount.cents := by
  obtain ⟨pre, mid, post, hrows, hlength, _, _, hmissing⟩ := D.split
  have hbefore : D.before.balance.cents = (pre.map (·.amount.cents)).sum := by
    rw [before, ← hlength]
    exact balanceAt_length D.journal (hrows.trans (List.append_assoc _ _ _))
  rw [hbefore, hmissing, (D.journal.at_place hrows).2]
  simp [add_assoc]

theorem check_survivor : check D.before D.survivor = some D.kind := by
  obtain ⟨_, hlt, _⟩ := D.survivor_spec
  have hbalance := D.survivor_balance
  have hno : D.before.no < D.survivor.no := show D.first - 1 < _ by omega
  have hgap : D.survivor.no ≠ D.before.no + 1 := show _ ≠ D.first - 1 + 1 by omega
  have hne : D.survivor.no ≠ D.before.no := by omega
  by_cases hzero : D.missing = 0
  · have hsum : D.survivor.balance.cents = D.before.balance.cents + D.survivor.amount.cents := by omega
    simp [check, flag, kind, hno, hgap, hne, hzero, hsum]
  · have hsum : D.survivor.balance.cents ≠ D.before.balance.cents + D.survivor.amount.cents := by omega
    simp [check, flag, kind, hno, hgap, hne, hzero, hsum]

/-- **The walk of a ledger that has lost rows** breaks at the first one left after
the first hole. -/
theorem walk_eq : walk check position (outcome d a).start ((outcome d a).rest (d.ledgerOf a)) =
    .broken D.before D.survivor D.kind := by
  obtain ⟨pre, mid, post, hrows, hlength, hpre, hmid, _⟩ := D.split
  obtain ⟨hmem, hlt, _⟩ := D.survivor_spec
  have hpast := D.past _ D.first_mem
  have hkept : D.surviving = pre ++ D.survivor :: post.filter (·.no ∉ D.deleted) := by
    rw [surviving, hrows, List.filter_append, List.filter_append, List.filter_eq_self.mpr,
      List.filter_eq_nil_iff.mpr, List.append_nil, List.filter_cons, if_pos (List.mem_filter.mp hmem).2]
    · simpa using hmid
    · simpa using hpre
  have hbefore : D.before = ⟨pre.length, balanceAt D.rows pre.length⟩ := by
    rw [before, hlength]
  have hpasses : walk check position
      ⟨throughNo (d.findLatestCheckpoint a), balanceAt D.rows (throughNo (d.findLatestCheckpoint a))⟩
      (pre.filter (throughNo (d.findLatestCheckpoint a) ≤ ·.no)) = .clean D.before := by
    rw [hbefore]
    exact walk_valid D.journal D.throughNo_nonneg (hrows.trans (List.append_assoc _ _ _)) (by omega)
  rw [D.start_eq, D.rest_eq, hkept, List.filter_append, walk_append, hpasses, List.filter_cons,
    if_pos (by simpa using by omega)]
  exact walk_cons_broken _ D.check_survivor

/-- What verifying the account comes to. -/
theorem comesTo_eq : comesTo d a = (incidentOf D.before D.survivor D.kind).map fun i =>
    ⟨some i, (outcome d a).bank D.before⟩ := by
  have hunfinished : (outcome d a).Unfinished (d.ledgerOf a) := by
    obtain ⟨hmem, hlt, _⟩ := D.survivor_spec
    have hpast := D.past _ D.first_mem
    rw [throughNo_eq] at hpast
    exact ⟨congrArg (Option.map _) D.idle, _, D.stored.mem_iff.mpr hmem, hpast.trans hlt⟩
  rw [comesTo, Outcome.eventual, if_pos hunfinished, D.walk_eq]
  rfl

/-- The expected balance at the break fits its column, if it has one. -/
def Fits : Prop :=
  D.missing = 0 ∨ (D.before.balance.cents + D.survivor.amount.cents).natAbs < 10 ^ 16

theorem comesTo_ne_none : comesTo d a ≠ none ↔ D.Fits := by
  rw [D.comesTo_eq, Ne, Option.map_eq_none_iff, incidentOf_eq_none, Fits, kind]
  by_cases hzero : D.missing = 0 <;> simp [hzero]

end Deletion
end Statement.System
