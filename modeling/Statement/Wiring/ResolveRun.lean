import Statement.Domain.Lock
import Statement.Wiring.Quarantine

/-! A resolve request, one statement at a time, on one session that commits.

The handler reads the open incident, the latest checkpoint and the ledger balance
without a lock. Its insert claims the checkpoint's key and locks the account it refers
to. The incident is then read
again, by its id and whether it is open or not, and the flush updates that row. -/
namespace Statement.Wiring
open Domain Foundation ResolveRequest
open Verification (SameRows)

inductive ResolvePhase where
  | begun
  /-- `find_open_discrepancy` has found the incident. -/
  | opened (discrepancy : CustomerAccountLedgerDiscrepancy)
  /-- The row to accept lies past the latest checkpoint. -/
  | anchored (discrepancy : CustomerAccountLedgerDiscrepancy) (throughNo : Int)
  | priced (discrepancy : CustomerAccountLedgerDiscrepancy) (throughNo : Int) (balance : Numeric)
  | checkpointed (discrepancy : CustomerAccountLedgerDiscrepancy) (throughNo : Int) (balance : Numeric)
  /-- `resolve_discrepancy` has read the incident again. -/
  | selected (discrepancy : CustomerAccountLedgerDiscrepancy) (throughNo : Int) (balance : Numeric)
  /-- The incident's row is updated; a commit answers 204. -/
  | updated (discrepancy : CustomerAccountLedgerDiscrepancy) (throughNo : Int) (balance : Numeric)
  | raised (f : ResolveFailure)

structure Resolver where
  request : ResolveRequest
  phase : ResolvePhase

namespace Resolver

def statement (d : Database) : Resolver → Option (List Lock × Resolver)
  | ⟨r, .begun⟩ =>
    match d.findOpenDiscrepancy r.accountId with
    | none => some ([], ⟨r, .raised .noOpenDiscrepancy⟩)
    | some discrepancy => some ([], ⟨r, .opened discrepancy⟩)
  | ⟨r, .opened discrepancy⟩ =>
    match r.throughNo discrepancy with
    | none => some ([], ⟨r, .raised .throughNoRequired⟩)
    | some throughNo =>
      if throughNo ≤ anchorNo d r.accountId then
        some ([], ⟨r, .raised (.notPastAnchor (anchorNo d r.accountId))⟩)
      else some ([], ⟨r, .anchored discrepancy throughNo⟩)
  | ⟨r, .anchored discrepancy throughNo⟩ =>
    if 2 ^ 63 ≤ throughNo then some ([], ⟨r, .raised .outOfRange⟩)
    else match d.findLedgerBalance r.accountId throughNo with
      | none => some ([], ⟨r, .raised (.noLedgerRow throughNo)⟩)
      | some balance => some ([], ⟨r, .priced discrepancy throughNo balance⟩)
  | ⟨r, .priced discrepancy throughNo balance⟩ =>
    some (if d.customerAccountLedgerVerified.conflicts ⟨r.accountId, throughNo, balance, r.verifiedAt⟩ then []
      else [.verifiedKey r.accountId throughNo, .accountRowShare r.accountId],
      ⟨r, .checkpointed discrepancy throughNo balance⟩)
  | ⟨r, .checkpointed discrepancy throughNo balance⟩ =>
    match d.findDiscrepancy discrepancy.discrepancyId discrepancy.accountId with
    | none => some ([], ⟨r, .raised .noResultFound⟩)
    | some _ => some ([], ⟨r, .selected discrepancy throughNo balance⟩)
  | ⟨r, .selected discrepancy throughNo balance⟩ =>
    some ([.discrepancyRow discrepancy.discrepancyId], ⟨r, .updated discrepancy throughNo balance⟩)
  | _ => none

def commit (d : Database) : Resolver → Option Database
  | ⟨r, .updated discrepancy throughNo balance⟩ => some (r.accepted discrepancy throughNo balance d)
  | _ => none

/-- The incident that the request acts on, once it has read it. -/
def incident (x : Resolver) : Option CustomerAccountLedgerDiscrepancy :=
  match x.phase with
  | .begun | .raised _ => none
  | .opened i | .anchored i _ | .priced i _ _ | .checkpointed i _ _ | .selected i _ _ | .updated i _ _ =>
    some i

/-- The row that the request accepts, once it is checked against the checkpoint. -/
def throughNo (x : Resolver) : Option Int :=
  match x.phase with
  | .begun | .raised _ | .opened _ => none
  | .anchored _ n | .priced _ n _ | .checkpointed _ n _ | .selected _ n _ | .updated _ n _ => some n

/-! ### On its own -/

/-- The next `n` statements, with nobody else on the database. -/
def proceed (d : Database) : Nat → Resolver → Resolver
  | 0, x => x
  | n + 1, x => match x.statement d with
    | none => x
    | some (_, x') => proceed d n x'

/-- **One after the other the statements are the handler.** -/
theorem proceed_accept (d : Database) (r : ResolveRequest) :
    proceed d 6 ⟨r, .begun⟩ = ⟨r, match r.accept d with
      | .error f => .raised f
      | .ok (i, throughNo, balance) => .updated i throughNo balance⟩ := by
  cases hi : d.findOpenDiscrepancy r.accountId with
  | none => simp [proceed, statement, accept, hi]
  | some i =>
    have hfound := findDiscrepancy_of_mem (findOpen_mem hi).1
    cases hn : r.throughNo i with
    | none => simp [proceed, statement, accept, hi, hn]
    | some n =>
      by_cases hpast : n ≤ anchorNo d r.accountId
      · simp [proceed, statement, accept, hi, hn, hpast]
      · by_cases hrange : 2 ^ 63 ≤ n
        · simp [proceed, statement, accept, hi, hn, hpast, hrange, -Int.reducePow]
        · cases hb : d.findLedgerBalance r.accountId n with
          | none => simp [proceed, statement, accept, hi, hn, hpast, hrange, hb, -Int.reducePow]
          | some balance =>
            simp [proceed, statement, accept, hi, hn, hpast, hrange, hb, hfound, -Int.reducePow]

/-! ### Among others -/

/-- What the request has read is still so: its incident is the account's open one,
and the row that it accepts lies past the latest checkpoint. -/
structure Current (x : Resolver) (d : Database) : Prop where
  opened : ∀ i, x.incident = some i → d.findOpenDiscrepancy x.request.accountId = some i
  past : ∀ n, x.throughNo = some n → anchorNo d x.request.accountId < n

section
variable {x x' : Resolver} {d d' : Database} {ks : List Lock}

theorem Current.idle (hi : x.incident = none) (hn : x.throughNo = none) : x.Current d :=
  ⟨fun i h => absurd (h.symm.trans hi) (Option.some_ne_none i),
    fun n h => absurd (h.symm.trans hn) (Option.some_ne_none n)⟩

/-- A statement keeps what the request has read, or raises. -/
theorem Current.statement (h : x.Current d) (hst : x.statement d = some (ks, x')) : x'.Current d := by
  obtain ⟨r, phase⟩ := x
  obtain ⟨hopened, hpast⟩ := h
  cases phase with
  | begun =>
    cases hi : d.findOpenDiscrepancy r.accountId with
    | none =>
      simp only [Resolver.statement, hi] at hst
      cases hst
      exact .idle rfl rfl
    | some i =>
      simp only [Resolver.statement, hi] at hst
      cases hst
      refine ⟨fun j hj => hj ▸ hi, fun n hn => ?_⟩
      cases hn
  | opened i =>
    simp only [Resolver.statement] at hst
    split at hst
    · cases hst
      exact .idle rfl rfl
    · split at hst
      · cases hst
        exact .idle rfl rfl
      · rename_i n _ hlt
        cases hst
        exact ⟨hopened, fun m hm => Option.some.inj hm ▸ not_le.mp hlt⟩
  | anchored i n =>
    simp only [Resolver.statement] at hst
    split at hst
    · cases hst
      exact .idle rfl rfl
    · split at hst
      · cases hst
        exact .idle rfl rfl
      · cases hst
        exact ⟨hopened, hpast⟩
  | priced i n balance =>
    cases hst
    exact ⟨hopened, hpast⟩
  | checkpointed i n balance =>
    simp only [Resolver.statement] at hst
    split at hst
    · cases hst
      exact .idle rfl rfl
    · cases hst
      exact ⟨hopened, hpast⟩
  | selected i n balance =>
    cases hst
    exact ⟨hopened, hpast⟩
  | updated i n balance => cases hst
  | raised f => cases hst

theorem throughNo_none (h : x.incident = none) : x.throughNo = none := by
  obtain ⟨r, phase⟩ := x
  cases phase with
  | begun => rfl
  | opened i => rfl
  | raised f => rfl
  | anchored i n => cases h
  | priced i n balance => cases h
  | checkpointed i n balance => cases h
  | selected i n balance => cases h
  | updated i n balance => cases h

theorem Current.sameRows (h : x.Current d) (hsame : SameRows x.request.accountId d d') : x.Current d' := by
  refine ⟨fun i hi => hsame.findOpenDiscrepancy.trans (h.opened i hi), fun n hn => ?_⟩
  rw [anchorNo, hsame.findLatestCheckpoint]
  exact h.past n hn

/-- Only a request that has run all its statements commits. -/
theorem commit_some (h : x.commit d = some d') :
    ∃ i n balance, x = ⟨x.request, .updated i n balance⟩ ∧ d' = x.request.accepted i n balance d := by
  obtain ⟨r, phase⟩ := x
  cases phase with
  | updated i n balance =>
    cases h
    exact ⟨i, n, balance, rfl, rfl⟩
  | begun => cases h
  | opened i => cases h
  | anchored i n => cases h
  | priced i n balance => cases h
  | checkpointed i n balance => cases h
  | selected i n balance => cases h
  | raised f => cases h

end

end Resolver
end Statement.Wiring
