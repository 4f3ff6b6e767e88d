import Statement.Verification.Clean

/-! One account, run after run.

What a run does to an account depends on its outcome so far and on its ledger
only. `advance` is one run with a window; `eventual` is one run over all that is
left. A run that advances leaves the eventual outcome as it was and has less left
to do, however wide its window is. -/
namespace Statement.Verification
open Domain Foundation

/-- `expected_balance`, from the walk. -/
def expectedBalance (previous : Position) (row : CustomerAccountLedger) :
    LedgerDiscrepancyKind → Option Int
  | .gap => none
  | .anchorBalance => some previous.balance.cents
  | .balance | .gapBalance => some (Decimal.add previous.balance.cents row.amount.cents)

/-- The incident of a break; `none` when its expected balance does not fit. -/
def incidentOf (previous : Position) (row : CustomerAccountLedger) (kind : LedgerDiscrepancyKind) :
    Option Incident :=
  (match expectedBalance previous row kind with
    | none => some none
    | some e => (Numeric.store e).map some).map fun e => ⟨row.no, kind, previous.no, e, row.balance⟩

/-- A check against a position succeeds on the row of the position. -/
theorem check_position (r : CustomerAccountLedger) : check (position r) r = none :=
  (check_eq_none le_rfl).mpr (.inl ⟨rfl, rfl⟩)

namespace Outcome

/-- The rows from the anchor on. -/
def rest (o : Outcome) (ledger : List CustomerAccountLedger) : List CustomerAccountLedger :=
  orderBy (·.no) (ledger.filter (o.start.no ≤ ·.no))

def bank (o : Outcome) (p : Position) : Option Position :=
  if o.start.no < p.no then some p else o.checkpoint

theorem bank_past {o : Outcome} {p : Position} (h : o.start.no < p.no) : o.bank p = some p := if_pos h

theorem bank_stay {o : Outcome} {p : Position} (h : ¬ o.start.no < p.no) : o.bank p = o.checkpoint :=
  if_neg h

/-- What recording a pass leaves. -/
def settle (o : Outcome) : Pass → Option Outcome
  | .clean last => some ⟨none, o.bank last⟩
  | .broken previous row kind =>
    (incidentOf previous row kind).map fun i => ⟨some i, o.bank previous⟩

def advance (o : Outcome) (windowRows : Nat) (ledger : List CustomerAccountLedger) : Option Outcome :=
  o.settle (walk check position o.start ((o.rest ledger).take windowRows))

/-- No incident is open, and there is a row past the anchor. -/
def Unfinished (o : Outcome) (ledger : List CustomerAccountLedger) : Prop :=
  o.incident = none ∧ ∃ l ∈ ledger, o.start.no < l.no

instance (o : Outcome) (ledger : List CustomerAccountLedger) : Decidable (o.Unfinished ledger) :=
  inferInstanceAs (Decidable (_ ∧ ∃ l ∈ ledger, o.start.no < l.no))

def eventual (o : Outcome) (ledger : List CustomerAccountLedger) : Option Outcome :=
  if o.Unfinished ledger then o.settle (walk check position o.start (o.rest ledger)) else some o

/-- The rows that an account still has to be walked. -/
def pending (o : Outcome) (ledger : List CustomerAccountLedger) : Nat :=
  if o.incident = none then (ledger.filter (o.start.no < ·.no)).length else 0

theorem eventual_of_finished {o : Outcome} {ledger : List CustomerAccountLedger}
    (h : ¬ o.Unfinished ledger) : o.eventual ledger = some o := if_neg h

/-- A pass is settled by where it got. -/
theorem settle_congr {o o' : Outcome} {pass : Pass} (h : o'.bank pass.reached = o.bank pass.reached) :
    o'.settle pass = o.settle pass := by
  cases pass with
  | clean last => exact congrArg (fun c => some (Outcome.mk none c)) h
  | broken previous row kind =>
    have h : o'.bank previous = o.bank previous := h
    rw [settle, settle, h]

section
variable {o o' : Outcome} {ledger : List CustomerAccountLedger} {windowRows : Nat}
  (hl : ledger.Pairwise fun r q => r.no ≠ q.no)

theorem mem_rest {r : CustomerAccountLedger} : r ∈ o.rest ledger ↔ r ∈ ledger ∧ o.start.no ≤ r.no := by
  simp [rest]

include hl in
theorem rest_sorted : (o.rest ledger).Pairwise fun r q => r.no < q.no :=
  orderBy_strict (hl.filter _)

include hl in
/-- From a row on, what is left is that row and what came after it. -/
theorem rest_resume {init tail : List CustomerAccountLedger} {r : CustomerAccountLedger}
    (hr : o.rest ledger = init ++ r :: tail) (ho : o'.start = position r) :
    o'.rest ledger = r :: tail := by
  have hstart : o'.start.no = r.no := congrArg Position.no ho
  have hle : o.start.no ≤ r.no := (mem_rest.mp (hr ▸ by simp : r ∈ o.rest ledger)).2
  have hsorted := rest_sorted (o := o) hl
  rw [hr] at hsorted
  obtain ⟨_, hrest, hinit⟩ := List.pairwise_append.mp hsorted
  calc o'.rest ledger = (o.rest ledger).filter (r.no ≤ ·.no) := by
        rw [rest, rest, ← orderBy_filter, ← orderBy_filter, List.filter_filter, hstart]
        refine List.filter_congr fun q _ => ?_
        by_cases hq : r.no ≤ q.no
        · simp [hq, hle.trans hq]
        · simp [hq]
    _ = r :: tail := by
        rw [hr, List.filter_append, List.filter_eq_nil_iff.mpr, List.nil_append, List.filter_eq_self]
        · intro q hq
          rcases List.mem_cons.mp hq with rfl | hq
          · simp
          · simpa using le_of_lt ((List.pairwise_cons.mp hrest).1 q hq)
        · intro q hq
          simpa using hinit q hq r List.mem_cons_self

include hl in
/-- A window of two rows gets past the anchor. -/
theorem window_past (h : o.Unfinished ledger) (hw : 2 ≤ windowRows) :
    ∃ init r, (o.rest ledger).take windowRows = init ++ [r] ∧
      o.rest ledger = init ++ r :: (o.rest ledger).drop windowRows ∧ o.start.no < r.no := by
  obtain ⟨_, l, hlm, hlt⟩ := h
  have hmem : l ∈ o.rest ledger := mem_rest.mpr ⟨hlm, le_of_lt hlt⟩
  have hne : (o.rest ledger).take windowRows ≠ [] := by
    rw [Ne, List.take_eq_nil_iff, not_or]
    exact ⟨by omega, List.ne_nil_of_mem hmem⟩
  obtain ⟨init, r, hinit⟩ := (List.eq_nil_or_concat _).resolve_left hne
  rw [List.concat_eq_append] at hinit
  have hsplit : o.rest ledger = init ++ r :: (o.rest ledger).drop windowRows := by
    conv_lhs => rw [← List.take_append_drop windowRows (o.rest ledger), hinit, List.append_assoc]
    rfl
  have hsorted := rest_sorted (o := o) hl
  rw [hsplit] at hsorted
  have hrm : r ∈ o.rest ledger := hsplit ▸ by simp
  refine ⟨init, r, hinit, hsplit, ?_⟩
  rcases List.eq_nil_or_concat init with rfl | ⟨init, q, rfl⟩
  · -- one row was read, so there is only one, and it is `l`
    have hlen : (o.rest ledger).length ≤ 1 := by
      have := congrArg List.length hinit
      simp only [List.length_take, List.nil_append, List.length_singleton] at this
      omega
    have htail : (o.rest ledger).drop windowRows = [] := List.drop_eq_nil_of_le (by omega)
    rw [hsplit, htail] at hmem
    rw [List.nil_append, List.mem_singleton] at hmem
    exact hmem ▸ hlt
  · rw [List.concat_eq_append] at hsplit hsorted
    have hq : o.start.no ≤ q.no := (mem_rest.mp (hsplit ▸ by simp : q ∈ o.rest ledger)).2
    have := (List.pairwise_append.mp hsorted).2.2 q (by simp) r List.mem_cons_self
    omega

include hl in
/-- One run of an unfinished account: it meets the break there is, or it banks the
last row of its window and goes on from there. -/
theorem advance_cases (h : o.Unfinished ledger) (hw : 2 ≤ windowRows) :
    (∃ previous row kind,
      walk check position o.start ((o.rest ledger).take windowRows) = .broken previous row kind ∧
      walk check position o.start (o.rest ledger) = .broken previous row kind) ∨
    ∃ r, o.advance windowRows ledger = some ⟨none, some (position r)⟩ ∧ r ∈ ledger ∧
      o.start.no < r.no ∧
      (⟨none, some (position r)⟩ : Outcome).rest ledger = r :: (o.rest ledger).drop windowRows ∧
      walk check position o.start (o.rest ledger) =
        walk check position (position r) ((o.rest ledger).drop windowRows) := by
  obtain ⟨init, r, hwindow, hsplit, hpast⟩ := window_past hl h hw
  have hwalk := @walk_append _ _ _ check position o.start ((o.rest ledger).take windowRows)
    ((o.rest ledger).drop windowRows)
  rw [List.take_append_drop] at hwalk
  cases hpass : walk check position o.start ((o.rest ledger).take windowRows) with
  | broken previous row kind =>
    rw [hpass] at hwalk
    exact .inl ⟨previous, row, kind, rfl, hwalk⟩
  | clean last =>
    have hlast : last = position r := by
      rw [walk_clean_last hpass, hwindow, List.getLast?_concat]
      rfl
    subst hlast
    rw [hpass] at hwalk
    have hmem : r ∈ ledger := (mem_rest.mp (hsplit ▸ by simp : r ∈ o.rest ledger)).1
    refine .inr ⟨r, ?_, hmem, hpast, rest_resume hl hsplit rfl, hwalk⟩
    rw [advance, hpass, settle, bank_past (show o.start.no < (position r).no from hpast)]

include hl in
/-- A run that cannot record its break is one whose break can never be recorded. -/
theorem advance_none (h : o.Unfinished ledger) (hw : 2 ≤ windowRows)
    (hnone : o.advance windowRows ledger = none) : o.eventual ledger = none := by
  rw [eventual, if_pos h]
  rcases advance_cases hl h hw with ⟨previous, row, kind, hpass, hfull⟩ | ⟨r, hsome, _⟩
  · rw [advance, hpass] at hnone
    rw [hfull, hnone]
  · rw [hsome] at hnone
    cases hnone

include hl in
/-- **A run does not change what an account's verification comes to.** -/
theorem eventual_advance (h : o.Unfinished ledger) (hw : 2 ≤ windowRows)
    (hsome : o.advance windowRows ledger = some o') : o'.eventual ledger = o.eventual ledger := by
  rw [eventual.eq_def o, if_pos h]
  rcases advance_cases hl h hw with ⟨previous, row, kind, hpass, hfull⟩ |
    ⟨r, hadvance, hmem, hpast, hrest, hfull⟩
  · rw [advance, hpass] at hsome
    rw [hfull, hsome, eventual_of_finished]
    -- the incident is open now
    obtain ⟨i, _, rfl⟩ := Option.map_eq_some_iff.mp hsome
    exact fun hu => nomatch hu.1
  · obtain rfl : _ = o' := Option.some.inj (hadvance.symm.trans hsome)
    have hsorted := @rest_sorted ⟨none, some (position r)⟩ ledger hl
    rw [hrest] at hsorted
    have hlater := (List.pairwise_cons.mp hsorted).1
    rw [hfull]
    by_cases hu : (⟨none, some (position r)⟩ : Outcome).Unfinished ledger
    · rw [eventual, if_pos hu, hrest]
      have hwalk : walk check position (⟨none, some (position r)⟩ : Outcome).start
          (r :: (o.rest ledger).drop windowRows) =
          walk check position (position r) ((o.rest ledger).drop windowRows) :=
        walk_cons_ok _ (check_position r)
      rw [hwalk]
      refine settle_congr ?_
      rcases @walk_reached _ _ _ check position (position r) ((o.rest ledger).drop windowRows) with
        he | ⟨q, hq, he⟩
      · rw [he, bank_past (show o.start.no < (position r).no from hpast)]
        exact bank_stay (lt_irrefl r.no)
      · rw [he, bank_past (show o.start.no < (position q).no from hpast.trans (hlater q hq))]
        exact bank_past (hlater q hq)
    · rw [eventual_of_finished hu]
      have htail : (o.rest ledger).drop windowRows = [] :=
        List.eq_nil_iff_forall_not_mem.mpr fun q hq =>
          hu ⟨rfl, q, (mem_rest.mp (hrest ▸ List.mem_cons_of_mem r hq)).1, hlater q hq⟩
      rw [htail, walk, settle, bank_past (show o.start.no < (position r).no from hpast)]

include hl in
/-- Every run has less to do. -/
theorem pending_advance (h : o.Unfinished ledger) (hw : 2 ≤ windowRows)
    (hsome : o.advance windowRows ledger = some o') : o'.pending ledger < o.pending ledger := by
  have hleft : ∃ l ∈ ledger, o.start.no < l.no := h.2
  rw [pending.eq_def o, if_pos h.1]
  rcases advance_cases hl h hw with ⟨previous, row, kind, hpass, _⟩ | ⟨r, hadvance, hmem, hpast, _⟩
  · rw [advance, hpass] at hsome
    obtain ⟨i, _, rfl⟩ := Option.map_eq_some_iff.mp hsome
    obtain ⟨l, hlm, hlt⟩ := hleft
    exact List.length_pos_of_mem (List.mem_filter.mpr ⟨hlm, by simpa using hlt⟩)
  · obtain rfl : _ = o' := Option.some.inj (hadvance.symm.trans hsome)
    have hfilter : ledger.filter ((position r).no < ·.no) =
        (ledger.filter (o.start.no < ·.no)).filter ((position r).no < ·.no) := by
      rw [List.filter_filter]
      refine List.filter_congr fun q _ => ?_
      by_cases hq : (position r).no < q.no
      · simp [hq, (show o.start.no < (position r).no from hpast).trans hq]
      · simp [hq]
    rw [pending, if_pos rfl]
    show (ledger.filter ((position r).no < ·.no)).length < _
    rw [hfilter, List.length_filter_lt_length_iff_exists]
    exact ⟨r, List.mem_filter.mpr ⟨hmem, by simpa using hpast⟩, by simp [position]⟩

/-- A window of the whole ledger gets where an account comes to. -/
theorem advance_covers (h : o.Unfinished ledger) (hcovers : ledger.length ≤ windowRows) :
    o.advance windowRows ledger = o.eventual ledger := by
  rw [advance, eventual, if_pos h, List.take_of_length_le]
  rw [rest, length_orderBy]
  exact (List.length_filter_le _ _).trans hcovers

include hl in
/-- A window of the whole ledger finishes the account. -/
theorem finished_of_covers (h : o.Unfinished ledger) (hw : 2 ≤ windowRows)
    (hcovers : ledger.length ≤ windowRows) (hsome : o.advance windowRows ledger = some o') :
    ¬ o'.Unfinished ledger := by
  rcases advance_cases hl h hw with ⟨previous, row, kind, hpass, _⟩ | ⟨r, hadvance, _, _, hrest, _⟩
  · rw [advance, hpass] at hsome
    obtain ⟨i, _, rfl⟩ := Option.map_eq_some_iff.mp hsome
    exact fun hu => nomatch hu.1
  · obtain rfl : _ = o' := Option.some.inj (hadvance.symm.trans hsome)
    have hlen : (o.rest ledger).length ≤ windowRows := by
      rw [rest, length_orderBy]
      exact (List.length_filter_le _ _).trans hcovers
    rw [List.drop_eq_nil_of_le hlen] at hrest
    rintro ⟨_, l, hlm, hlt⟩
    have hlr : l ∈ (⟨none, some (position r)⟩ : Outcome).rest ledger := mem_rest.mpr ⟨hlm, le_of_lt hlt⟩
    rw [hrest, List.mem_singleton] at hlr
    exact absurd (hlr ▸ hlt) (lt_irrefl r.no)

end
end Outcome
end Statement.Verification
