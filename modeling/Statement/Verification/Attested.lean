import Statement.Foundation.Journal
import Statement.Verification.Quarantine

/-! What a position that a walk has reached says about the ledger.

From a base, the rows up to the position are a journal: none is missing, and every
balance is the base's plus the amounts so far. A walk keeps this, from whatever the
ledger holds, and rows that are added past the position do not touch it. -/
namespace Statement.Verification
open Domain Foundation

/-- The rows numbered past `m` up to `n`, in order. -/
def between (ledger : List CustomerAccountLedger) (m n : Int) : List CustomerAccountLedger :=
  orderBy (·.no) (ledger.filter fun r => m < r.no ∧ r.no ≤ n)

/-- The rows past the base, up to `p`, are a journal that starts at the base. -/
structure Attested (base p : Position) (ledger : List CustomerAccountLedger) : Prop where
  journal : Journal (fun r => r.no - base.no) (·.amount.cents) (fun r => r.balance.cents - base.balance.cents)
    (between ledger base.no p.no)
  last : (between ledger base.no p.no).getLast?.map position = some p

/-- `p` is the base, or it is attested from there. -/
def Stands (base p : Position) (ledger : List CustomerAccountLedger) : Prop :=
  p = base ∨ Attested base p ledger

section
variable {ledger : List CustomerAccountLedger} {base p : Position} {m n : Int}

theorem mem_between {r : CustomerAccountLedger} : r ∈ between ledger m n ↔ r ∈ ledger ∧ m < r.no ∧ r.no ≤ n := by
  simp [between]

theorem between_self (ledger : List CustomerAccountLedger) (m : Int) : between ledger m m = [] := by
  refine List.eq_nil_iff_forall_not_mem.mpr fun r hr => ?_
  obtain ⟨_, hlt, hle⟩ := mem_between.mp hr
  omega

/-- The next row goes to the end. -/
theorem between_succ (hl : ledger.Pairwise fun r q => r.no ≠ q.no) {r : CustomerAccountLedger}
    (hr : r ∈ ledger) (hno : r.no = n + 1) (hle : m ≤ n) :
    between ledger m (n + 1) = between ledger m n ++ [r] := by
  have hmem : r ∈ orderBy (·.no) ledger := mem_orderBy.mpr hr
  obtain ⟨pre, post, hsplit⟩ := List.append_of_mem hmem
  have hsorted := orderBy_strict hl
  rw [hsplit] at hsorted
  obtain ⟨_, hrest, hpre⟩ := List.pairwise_append.mp hsorted
  have hbefore : ∀ q ∈ pre, q.no ≤ n := by
    intro q hq
    have := hpre q hq r List.mem_cons_self
    omega
  have hafter : ∀ q ∈ post, ¬ q.no ≤ n + 1 := by
    intro q hq
    have := (List.pairwise_cons.mp hrest).1 q hq
    omega
  have hcut : ∀ k, between ledger m k =
      pre.filter (fun q => m < q.no ∧ q.no ≤ k) ++
        (r :: post).filter (fun q => m < q.no ∧ q.no ≤ k) := by
    intro k
    rw [between, ← orderBy_filter, hsplit, List.filter_append]
  have hsame : pre.filter (fun q => m < q.no ∧ q.no ≤ n + 1) =
      pre.filter (fun q => m < q.no ∧ q.no ≤ n) := by
    refine List.filter_congr fun q hq => ?_
    have := hbefore q hq
    simp [this, (by omega : q.no ≤ n + 1)]
  have hnone : ∀ k, k ≤ n + 1 → post.filter (fun q => m < q.no ∧ q.no ≤ k) = [] := by
    refine fun k hk => List.filter_eq_nil_iff.mpr fun q hq => ?_
    have := hafter q hq
    simpa using fun _ => (by omega : k < q.no)
  rw [hcut, hcut, hsame, List.filter_cons_of_pos (by simp; omega), List.filter_cons_of_neg (by simp; omega),
    hnone _ le_rfl, hnone n (by omega), List.append_nil]

/-- Rows past `n` are not among them. -/
theorem between_append {row : CustomerAccountLedger} (h : n < row.no) :
    between (ledger ++ [row]) m n = between ledger m n := by
  rw [between, List.filter_append, List.filter_cons_of_neg (by simp; omega), List.filter_nil, List.append_nil]
  rfl

theorem Attested.no_lt (h : Attested base p ledger) : base.no < p.no := by
  obtain ⟨r, hr, rfl⟩ := Option.map_eq_some_iff.mp h.last
  exact (mem_between.mp (List.mem_of_getLast? hr)).2.1

/-- The position is a stored row. -/
theorem Attested.stored (h : Attested base p ledger) : ∃ r ∈ ledger, position r = p := by
  obtain ⟨r, hr, hp⟩ := Option.map_eq_some_iff.mp h.last
  exact ⟨r, (mem_between.mp (List.mem_of_getLast? hr)).1, hp⟩

/-- No number is missing. -/
theorem Attested.dense (h : Attested base p ledger) {k : Int} (h₁ : base.no < k) (h₂ : k ≤ p.no) :
    ∃ r ∈ ledger, r.no = k := by
  obtain ⟨last, hlast, hp⟩ := Option.map_eq_some_iff.mp h.last
  have hno : last.no = p.no := congrArg Position.no hp
  obtain ⟨r, hr, hrk⟩ := h.journal.exists_no (List.mem_of_getLast? hlast) (n := k - base.no)
    (by omega) (by omega)
  exact ⟨r, (mem_between.mp hr).1, by omega⟩

/-- Every balance on the way is the base's plus the amounts up to it. -/
theorem Attested.balance (h : Attested base p ledger) {r : CustomerAccountLedger} (hr : r ∈ ledger)
    (h₁ : base.no < r.no) (h₂ : r.no ≤ p.no) :
    r.balance.cents = base.balance.cents +
      ((ledger.filter fun q => base.no < q.no ∧ q.no ≤ r.no).map (·.amount.cents)).sum := by
  have hsum := h.journal.balance_eq_sum (mem_between.mpr ⟨hr, h₁, h₂⟩)
  have hfilter : (between ledger base.no p.no).filter (fun q => q.no - base.no ≤ r.no - base.no) =
      between ledger base.no r.no := by
    rw [between, orderBy_filter, List.filter_filter]
    refine congrArg _ (List.filter_congr fun q _ => ?_)
    by_cases hq : q.no ≤ r.no
    · simp [hq, hq.trans h₂]
    · simp [hq]
  rw [hfilter] at hsum
  have hperm : ((between ledger base.no r.no).map (·.amount.cents)).sum =
      ((ledger.filter fun q => base.no < q.no ∧ q.no ≤ r.no).map (·.amount.cents)).sum :=
    ((orderBy_perm _ _).map _).sum_eq
  omega

/-- The row after a position that stands adds its amount to it. -/
theorem Attested.follows (h : Attested base p ledger) {s : Position} (hs : Stands base s ledger)
    {r : CustomerAccountLedger} (hr : r ∈ ledger) (hno : r.no = s.no + 1) (hle : r.no ≤ p.no) :
    r.balance.cents = s.balance.cents + r.amount.cents := by
  rcases hs with rfl | hs
  · have hmem : r ∈ between ledger s.no p.no := mem_between.mpr ⟨hr, by omega, hle⟩
    obtain ⟨pre, post, hsplit⟩ := List.append_of_mem hmem
    obtain ⟨hplace, hbalance⟩ := h.journal.at_place hsplit
    obtain rfl : pre = [] := List.length_eq_zero_iff.mp (by omega)
    simp only [List.nil_append, List.map_cons, List.map_nil, List.sum_cons, List.sum_nil] at hbalance
    omega
  · obtain ⟨q, hq, rfl⟩ := hs.stored
    have hlt : base.no < q.no := hs.no_lt
    have hno : r.no = q.no + 1 := hno
    have hstep := h.journal.balance_succ (mem_between.mpr ⟨hq, hlt, by omega⟩)
      (mem_between.mpr ⟨hr, by omega, hle⟩) (by omega)
    show r.balance.cents = q.balance.cents + r.amount.cents
    omega

/-- A row that passes the check moves the position on, or leaves it. -/
theorem Stands.next (h : Stands base p ledger) (hl : ledger.Pairwise fun r q => r.no ≠ q.no)
    {r : CustomerAccountLedger} (hr : r ∈ ledger) (hle : p.no ≤ r.no) (hcheck : check p r = none) :
    Stands base (position r) ledger := by
  rcases (check_eq_none hle).mp hcheck with ⟨hno, hbalance⟩ | ⟨hno, hbalance⟩
  · have hsame : position r = p := by rw [position, hno, hbalance]
    exact hsame ▸ h
  · refine .inr ?_
    rcases h with rfl | h
    · have hrows : between ledger p.no r.no = [r] := by
        rw [hno, between_succ hl hr hno le_rfl, between_self, List.nil_append]
      refine ⟨?_, ?_⟩
      · show Journal _ _ _ (between ledger p.no r.no)
        rw [hrows]
        exact .singleton (by omega) (by omega)
      · show (between ledger p.no r.no).getLast?.map position = _
        rw [hrows]
        rfl
    · have hrows : between ledger base.no r.no = between ledger base.no p.no ++ [r] := by
        rw [hno]
        exact between_succ hl hr hno h.no_lt.le
      obtain ⟨last, hlast, rfl⟩ := Option.map_eq_some_iff.mp h.last
      refine ⟨?_, ?_⟩
      · show Journal _ _ _ (between ledger base.no r.no)
        rw [hrows]
        have hno : r.no = last.no + 1 := hno
        have hbalance : r.balance.cents = last.balance.cents + r.amount.cents := hbalance
        refine h.journal.append hlast ⟨?_, ?_⟩
        · show r.no - base.no = last.no - base.no + 1
          omega
        · show r.balance.cents - base.balance.cents =
            last.balance.cents - base.balance.cents + r.amount.cents
          omega
      · show (between ledger base.no r.no).getLast?.map position = _
        rw [hrows, List.getLast?_concat]
        rfl

/-- **A walk attests what it has passed**, whatever it meets then. -/
theorem Stands.walk (h : Stands base p ledger) (hl : ledger.Pairwise fun r q => r.no ≠ q.no)
    {rows : List CustomerAccountLedger} (hrows : rows ⊆ ledger)
    (hsorted : rows.Pairwise fun r q => r.no < q.no) (hle : ∀ r ∈ rows, p.no ≤ r.no) :
    Stands base (Foundation.walk check position p rows).reached ledger := by
  induction rows generalizing p with
  | nil => exact h
  | cons r rows ih =>
    obtain ⟨hr, hsorted⟩ := List.pairwise_cons.mp hsorted
    cases hcheck : check p r with
    | some kind =>
      rw [walk_cons_broken _ hcheck]
      exact h
    | none =>
      rw [walk_cons_ok _ hcheck]
      have hnext := h.next hl (hrows List.mem_cons_self) (hle r List.mem_cons_self) hcheck
      exact ih hnext (fun q hq => hrows (List.mem_cons_of_mem r hq)) hsorted fun q hq => (hr q hq).le

theorem Attested.append (h : Attested base p ledger) {row : CustomerAccountLedger} (hrow : p.no < row.no) :
    Attested base p (ledger ++ [row]) := by
  refine ⟨?_, ?_⟩
  · rw [between_append hrow]
    exact h.journal
  · rw [between_append hrow]
    exact h.last

/-- Rows past all there are leave what stands. -/
theorem Stands.append (h : Stands base p ledger) {row : CustomerAccountLedger}
    (hrow : ∀ q ∈ ledger, q.no < row.no) : Stands base p (ledger ++ [row]) := by
  refine h.imp_right fun h => ?_
  obtain ⟨r, hr, rfl⟩ := h.stored
  exact h.append (hrow r hr)

end

/-! ### The first row that fails -/

/-- A walk that gets no further has not moved. -/
theorem reached_eq {p : Position} {rows : List CustomerAccountLedger} (hsorted : rows.Pairwise fun r q => r.no < q.no)
    (hle : ∀ r ∈ rows, p.no ≤ r.no) (h : (walk check position p rows).reached.no = p.no) :
    (walk check position p rows).reached = p := by
  induction rows generalizing p with
  | nil => rfl
  | cons r rows ih =>
    obtain ⟨hr, hsorted⟩ := List.pairwise_cons.mp hsorted
    cases hcheck : check p r with
    | some kind =>
      rw [walk_cons_broken _ hcheck]
      rfl
    | none =>
      rw [walk_cons_ok _ hcheck] at h ⊢
      rcases (check_eq_none (hle r List.mem_cons_self)).mp hcheck with ⟨hno, hbalance⟩ | ⟨hno, _⟩
      · have hsame : position r = p := by rw [position, hno, hbalance]
        rw [hsame] at h ⊢
        exact ih hsorted (fun q hq => hle q (List.mem_cons_of_mem r hq)) h
      · -- the walk is past `r` by now
        exfalso
        rcases @walk_reached _ _ _ check position (position r) rows with hreached | ⟨q, hq, hreached⟩
        · rw [hreached] at h
          have h : r.no = p.no := h
          omega
        · rw [hreached] at h
          have h : q.no = p.no := h
          have := hr q hq
          omega

namespace Outcome
variable {o o' : Outcome} {ledger pre post : List CustomerAccountLedger} {base previous : Position}
  {row : CustomerAccountLedger} {kind : LedgerDiscrepancyKind}

/-- An open incident names the first row stored past the checkpoint, and no row
follows the checkpoint as it should. -/
structure Named (o : Outcome) (ledger : List CustomerAccountLedger) : Prop where
  prev : ∀ i, o.incident = some i → i.prevNo = o.start.no
  stored : ∀ i, o.incident = some i → ∃ r ∈ ledger, r.no = i.no ∧ r.balance = i.actualBalance
  past : ∀ i, o.incident = some i → i.kind ≠ .anchorBalance → o.start.no < i.no
  next : ∀ i, o.incident = some i → ∀ r ∈ ledger, o.start.no < r.no → i.no ≤ r.no
  longest : ∀ i, o.incident = some i → i.kind ≠ .anchorBalance → ∀ r ∈ ledger, r.no = o.start.no + 1 →
    r.balance.cents ≠ o.start.balance.cents + r.amount.cents

theorem named_idle (h : o.incident = none) : o.Named ledger := by
  have hnot : ∀ i, o.incident ≠ some i := fun i hi => Option.some_ne_none i (hi.symm.trans h)
  exact ⟨fun i hi => absurd hi (hnot i), fun i hi => absurd hi (hnot i), fun i hi => absurd hi (hnot i),
    fun i hi => absurd hi (hnot i), fun i hi => absurd hi (hnot i)⟩

/-- Rows past all there are do not change what is named. -/
theorem Named.append (h : o.Named ledger) {r : CustomerAccountLedger} (hr : ∀ q ∈ ledger, q.no < r.no) :
    o.Named (ledger ++ [r]) := by
  have hmem : ∀ q ∈ ledger ++ [r], q ∈ ledger ∨ q = r := fun q hq =>
    (List.mem_append.mp hq).imp_right List.mem_singleton.mp
  have hbelow : ∀ i, o.incident = some i → i.no < r.no := by
    intro i hi
    obtain ⟨q, hq, hno, _⟩ := h.stored i hi
    exact hno ▸ hr q hq
  refine ⟨h.prev, fun i hi => ?_, h.past, fun i hi q hq hlt => ?_, fun i hi hkind q hq hno => ?_⟩
  · obtain ⟨q, hq, hno, hbalance⟩ := h.stored i hi
    exact ⟨q, List.mem_append_left _ hq, hno, hbalance⟩
  · rcases hmem q hq with hq | rfl
    · exact h.next i hi q hq hlt
    · exact (hbelow i hi).le
  · rcases hmem q hq with hq | rfl
    · exact h.longest i hi hkind q hq hno
    · have := hbelow i hi
      have := h.past i hi hkind
      omega

section
variable (hl : ledger.Pairwise fun r q => r.no ≠ q.no) (hrest : o.rest ledger = pre ++ post)
include hl hrest

theorem walked_sorted : pre.Pairwise (fun r q => r.no < q.no) ∧
    ∀ r ∈ pre, r ∈ ledger ∧ o.start.no ≤ r.no := by
  have hsorted := rest_sorted (o := o) hl
  rw [hrest] at hsorted
  exact ⟨(List.pairwise_append.mp hsorted).1, fun r hr => mem_rest.mp (hrest ▸ List.mem_append_left post hr)⟩

/-- What is banked is where the walk has got. -/
theorem bank_walked (incident : Option Incident) :
    (⟨incident, o.bank (walk check position o.start pre).reached⟩ : Outcome).start =
      (walk check position o.start pre).reached := by
  obtain ⟨hsorted, hmem⟩ := walked_sorted hl hrest
  by_cases hlt : o.start.no < (walk check position o.start pre).reached.no
  · rw [bank_past hlt]
    rfl
  · have hle : o.start.no ≤ (walk check position o.start pre).reached.no := by
      rcases @walk_reached _ _ _ check position o.start pre with hreached | ⟨q, hq, hreached⟩
      · rw [hreached]
      · rw [hreached]
        exact (hmem q hq).2
    rw [bank_stay hlt]
    exact (reached_eq hsorted (fun r hr => (hmem r hr).2) (le_antisymm (not_lt.mp hlt) hle)).symm

/-- The broken row is the next one stored, and no row continues the position before it. -/
theorem broken_next (h : walk check position o.start pre = .broken previous row kind) :
    row ∈ ledger ∧ check previous row = some kind ∧
      (∀ r ∈ ledger, previous.no < r.no → row.no ≤ r.no) ∧
      (kind ≠ .anchorBalance → ∀ r ∈ ledger, r.no = previous.no + 1 →
        r.balance.cents ≠ previous.balance.cents + r.amount.cents) := by
  obtain ⟨passed, later, hpre, hpassed, hcheck⟩ := walk_broken h
  have hsplit : o.rest ledger = passed ++ row :: (later ++ post) := by
    rw [hrest, hpre, List.append_assoc]
    rfl
  have hsorted := rest_sorted (o := o) hl
  rw [hsplit] at hsorted
  obtain ⟨hinit, htail, _⟩ := List.pairwise_append.mp hsorted
  have hrow : row ∈ ledger := (mem_rest.mp (hsplit ▸ by simp : row ∈ o.rest ledger)).1
  have hbehind : o.start.no ≤ previous.no ∧ ∀ q ∈ passed, q.no ≤ previous.no := by
    rw [walk_clean_last hpassed]
    rcases List.eq_nil_or_concat passed with rfl | ⟨init, q, rfl⟩
    · exact ⟨le_rfl, by simp⟩
    · rw [List.concat_eq_append] at hinit hsplit ⊢
      rw [List.getLast?_concat]
      have hq : o.start.no ≤ q.no := (mem_rest.mp (hsplit ▸ by simp : q ∈ o.rest ledger)).2
      refine ⟨hq, fun x hx => ?_⟩
      rcases List.mem_append.mp hx with hx | hx
      · exact ((List.pairwise_append.mp hinit).2.2 x hx q (List.mem_singleton.mpr rfl)).le
      · exact List.mem_singleton.mp hx ▸ le_rfl
  have hnext : ∀ r ∈ ledger, previous.no < r.no → row.no ≤ r.no := by
    intro r hr hlt
    have hmem : r ∈ o.rest ledger := mem_rest.mpr ⟨hr, by omega⟩
    rw [hsplit] at hmem
    rcases List.mem_append.mp hmem with hmem | hmem
    · have := hbehind.2 r hmem
      omega
    · rcases List.mem_cons.mp hmem with rfl | hmem
      · exact le_rfl
      · exact ((List.pairwise_cons.mp htail).1 r hmem).le
  refine ⟨hrow, hcheck, hnext, fun hkind r hr hno hbalance => ?_⟩
  have hpast := check_other hcheck hkind
  have hle := hnext r hr (by omega)
  have hsymm : Std.Symm fun r q : CustomerAccountLedger => r.no ≠ q.no := ⟨fun _ _ => Ne.symm⟩
  have hsame : r = row := by
    by_contra hne
    exact hl.forall hr hrow hne (by omega)
  subst hsame
  rw [(check_eq_none (by omega)).mpr (.inr ⟨hno, hbalance⟩)] at hcheck
  cases hcheck

/-- What is recorded of a walk names the break, and stands where the walk started. -/
theorem settle_named (h : o.settle (walk check position o.start pre) = some o') :
    o'.Named ledger ∧ o'.start = (walk check position o.start pre).reached := by
  have hbank := fun incident => bank_walked hl hrest incident
  cases hpass : walk check position o.start pre with
  | clean last =>
    rw [hpass] at h hbank
    obtain rfl : (⟨none, o.bank last⟩ : Outcome) = o' := Option.some.inj h
    exact ⟨named_idle rfl, hbank none⟩
  | broken previous row kind =>
    rw [hpass] at h hbank
    obtain ⟨hrow, hcheck, hnext, hlongest⟩ := broken_next hl hrest hpass
    obtain ⟨incident, hincident, rfl⟩ := Option.map_eq_some_iff.mp h
    obtain ⟨hno, hkind, hprev⟩ := incidentOf_some hincident
    have hactual : incident.actualBalance = row.balance := by
      obtain ⟨_, _, rfl⟩ := Option.map_eq_some_iff.mp hincident
      rfl
    have hstart : (⟨some incident, o.bank previous⟩ : Outcome).start = previous := hbank (some incident)
    refine ⟨⟨fun i hi => ?_, fun i hi => ?_, fun i hi hne => ?_, fun i hi => ?_, fun i hi hne => ?_⟩, hstart⟩
    · cases hi
      rw [hstart, hprev]
    · cases hi
      exact ⟨row, hrow, hno.symm, hactual.symm⟩
    · cases hi
      rw [hstart, hno]
      exact check_other hcheck (hkind ▸ hne)
    · cases hi
      rw [hstart, hno]
      exact hnext
    · cases hi
      rw [hstart]
      exact hlongest (hkind ▸ hne)

theorem settle_stands (h : o.settle (walk check position o.start pre) = some o')
    (hs : Stands base o.start ledger) : Stands base o'.start ledger := by
  obtain ⟨hsorted, hmem⟩ := walked_sorted hl hrest
  rw [(settle_named hl hrest h).2]
  exact hs.walk hl (fun r hr => (hmem r hr).1) hsorted fun r hr => (hmem r hr).2

end
end Outcome

/-! ### What verification comes to -/

/-- Before the first row. -/
def origin : Position := ⟨0, .zero⟩

/-- Every row is at the end of a journal of the rows before it. A row numbered zero
stands for what was before the first. -/
def Intact (ledger : List CustomerAccountLedger) : Prop :=
  ∀ r ∈ ledger, 1 ≤ r.no →
    (∀ q ∈ ledger, q.no = 0 → q.balance = .zero) ∧ Attested origin (position r) ledger

/-- What an account's verification has found: how far the ledger holds, and the first
row past there, unless that is all. -/
structure Decided (o : Outcome) (ledger : List CustomerAccountLedger) : Prop where
  stands : Stands origin o.start ledger
  intact : o.incident = none ↔ Intact ledger
  named : o.Named ledger

/-- The account before its first run. -/
def Outcome.fresh : Outcome := ⟨none, none⟩

section
variable {ledger : List CustomerAccountLedger} (hl : ledger.Pairwise fun r q => r.no ≠ q.no)
include hl

theorem rest_stands {pre post : List CustomerAccountLedger} (hrest : Outcome.fresh.rest ledger = pre ++ post) :
    Stands origin (walk check position origin pre).reached ledger := by
  obtain ⟨hsorted, hmem⟩ := Outcome.walked_sorted hl hrest
  have hstart : Stands origin origin ledger := .inl rfl
  exact hstart.walk hl (fun r hr => (hmem r hr).1) hsorted fun r hr => (hmem r hr).2

/-- A walk that meets no break has passed an intact ledger. -/
theorem intact_of_clean {last : Position}
    (h : walk check position origin (Outcome.fresh.rest ledger) = .clean last) : Intact ledger := by
  intro r hr hpos
  have hsorted := Outcome.rest_sorted (o := Outcome.fresh) hl
  have hge : ∀ q ∈ Outcome.fresh.rest ledger, origin.no ≤ q.no := fun q hq => (Outcome.mem_rest.mp hq).2
  have hcontinues := continues_of_clean hsorted hge h
  refine ⟨fun q hq hzero => ?_, ?_⟩
  · exact hcontinues.anchor q (Outcome.mem_rest.mpr ⟨hq, hzero.ge⟩) hzero
  · have hzero : (0 : Int) ≤ r.no := by omega
    obtain ⟨pre, post, hsplit⟩ := List.append_of_mem (Outcome.mem_rest.mpr ⟨hr, hzero⟩ : r ∈ Outcome.fresh.rest ledger)
    have hsplit' : Outcome.fresh.rest ledger = (pre ++ [r]) ++ post := by
      rw [hsplit, List.append_assoc]
      rfl
    have hstands := rest_stands hl hsplit'
    have hclean : walk check position origin (pre ++ [r]) = .clean (position r) := by
      have happend := @walk_append _ _ _ check position origin (pre ++ [r]) post
      rw [← hsplit', h] at happend
      cases hpre : walk check position origin (pre ++ [r]) with
      | clean s =>
        rw [walk_clean_last hpre, List.getLast?_concat]
        rfl
      | broken previous a kind =>
        rw [hpre] at happend
        cases happend
    rw [hclean, Walk.reached] at hstands
    rcases hstands with he | hattested
    · have : r.no = 0 := congrArg Position.no he
      omega
    · exact hattested

/-- An intact ledger is walked to its end. -/
theorem not_broken_of_intact (h : Intact ledger) (hpast : ∃ r ∈ ledger, (0 : Int) < r.no)
    {previous : Position} {row : CustomerAccountLedger} {kind : LedgerDiscrepancyKind} :
    walk check position origin (Outcome.fresh.rest ledger) ≠ .broken previous row kind := by
  intro hbroken
  obtain ⟨hrow, hcheck, hnext, hlongest⟩ :=
    Outcome.broken_next (o := Outcome.fresh) hl (List.append_nil _).symm hbroken
  obtain ⟨pre, post, hrest, hpre, _⟩ := walk_broken hbroken
  have hstands := rest_stands hl hrest
  have hpre' : (walk check position origin pre).reached = previous := by
    have hpre : walk check position origin pre = .clean previous := hpre
    rw [hpre]
    rfl
  rw [hpre'] at hstands
  have hzero : (0 : Int) ≤ previous.no := by
    rcases hstands with rfl | hattested
    · exact le_rfl
    · exact hattested.no_lt.le
  by_cases hkind : kind = .anchorBalance
  · -- only the anchor's own row fails so, and that is a row numbered zero
    subst hkind
    have hno : row.no = previous.no := check_anchorBalance hcheck
    have hprevious : previous = origin := by
      have htake : walk check position Outcome.fresh.start
          ((Outcome.fresh.rest ledger).take (Outcome.fresh.rest ledger).length) =
            .broken previous row .anchorBalance := by
        rw [List.take_length]
        exact hbroken
      exact Outcome.anchorBalance_previous hl htake
    subst hprevious
    obtain ⟨r, hr, hlt⟩ := hpast
    have hbalance := (h r hr (by omega)).1 row hrow hno
    rw [(check_eq_none hno.ge).mpr (.inl ⟨hno, hbalance⟩)] at hcheck
    cases hcheck
  · have hlt := check_other hcheck hkind
    have hattested := (h row hrow (by omega)).2
    obtain ⟨r, hr, hno⟩ := hattested.dense (k := previous.no + 1)
      (by show (0 : Int) < _; omega) (by show _ ≤ row.no; omega)
    have hle : r.no ≤ row.no := by omega
    exact hlongest hkind r hr hno (hattested.follows hstands hr hno hle)

theorem eventual_decided {o : Outcome} (h : Outcome.fresh.eventual ledger = some o) :
    Decided o ledger := by
  rw [Outcome.eventual] at h
  split at h
  · rename_i hunfinished
    have hwhole := (List.append_nil (Outcome.fresh.rest ledger)).symm
    refine ⟨Outcome.settle_stands hl hwhole h (.inl rfl), ?_, (Outcome.settle_named hl hwhole h).1⟩
    cases hpass : walk check position Outcome.fresh.start (Outcome.fresh.rest ledger) with
    | clean last =>
      rw [hpass] at h
      obtain rfl : (⟨none, Outcome.fresh.bank last⟩ : Outcome) = o := Option.some.inj h
      exact ⟨fun _ => intact_of_clean hl hpass, fun _ => rfl⟩
    | broken previous row kind =>
      rw [hpass] at h
      obtain ⟨incident, _, rfl⟩ := Option.map_eq_some_iff.mp h
      exact ⟨fun hnone => (by cases hnone), fun hintact =>
        absurd hpass (not_broken_of_intact hl hintact hunfinished.2)⟩
  · rename_i hfinished
    obtain rfl : Outcome.fresh = o := Option.some.inj h
    refine ⟨.inl rfl, ⟨fun _ r hr hpos => ?_, fun _ => rfl⟩, Outcome.named_idle rfl⟩
    exact absurd ⟨rfl, r, hr, hpos⟩ hfinished

end

/-- **What verification finds**: runs that have nothing left to do have found, for an
account that had not been verified, how far its ledger holds and the first row past
there; and nothing exactly when all of it holds. -/
theorem verification_decides (d : Database) (accountsPerRun rowsPerAccount : Nat)
    (ha : 1 ≤ accountsPerRun) (hr : 1 ≤ rowsPerAccount) (inputs : Nat → RunInput)
    (hfair : ∀ n, (inputs n).Fair accountsPerRun rowsPerAccount (after inputs d n)) (n : Nat)
    (hquiet : Quiet accountsPerRun rowsPerAccount (after inputs d n)) (x : CustomerAccount)
    (hx : x ∈ d.customerAccount.rows) (hfresh : outcome d x.id = .fresh) :
    Decided (outcome (after inputs d n) x.id) (d.ledgerOf x.id) := by
  obtain ⟨huntouched, hcomes⟩ := after_comesTo (fun n => (hfair n).reads hr) n
  have hfinished := finished_of_nextBatch (hfair n).scan (hfair n).stale
    ((hfair n).accounts ▸ ha) (hquiet _ (hfair n))
  have hnow := Outcome.eventual_of_finished (hfinished x (huntouched.account.symm ▸ hx))
  have hthen : comesTo d x.id = some (outcome (after inputs d n) x.id) := (hcomes x.id).symm.trans hnow
  rw [comesTo, hfresh] at hthen
  exact eventual_decided (ledgerOf_distinct d x.id) hthen

/-- Small runs over the ledger that misses row 3. -/
theorem gapped_decided : ∃ (i : RunInput) (n : Nat), Quiet 1 1 (after (fun _ => i) gapped n) ∧
    ∀ x ∈ gapped.customerAccount.rows,
      Decided (outcome (after (fun _ => i) gapped n) x.id) (gapped.ledgerOf x.id) := by
  obtain ⟨i, hfair⟩ := exists_fair 1 1 gapped
  have hcomes : ∀ x ∈ gapped.customerAccount.rows, comesTo gapped x.id ≠ none := by decide
  have hfresh : ∀ x ∈ gapped.customerAccount.rows, outcome gapped x.id = .fresh := by decide
  obtain ⟨n, hn⟩ := exists_finished (by decide) (by decide) hfair hcomes
  have hquiet : Quiet 1 1 (after (fun _ => i) gapped n) := fun j hj => nextBatch_of_finished hj.scan hj.stale hn
  exact ⟨i, n, hquiet, fun x hx => verification_decides gapped 1 1 (by decide) (by decide) (fun _ => i)
    hfair n hquiet x hx (hfresh x hx)⟩

end Statement.Verification
