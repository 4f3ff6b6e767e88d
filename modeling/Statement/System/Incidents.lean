import Statement.Foundation.Audit
import Statement.System.Service
import Statement.Verification.Recording
import Statement.Wiring.ResolveRun

/-! Incidents, between concurrent resolve requests and verifier runs.

The verifier's runs of one schedule exclude each other by its advisory lock, and
an account with an open incident is in no batch. Nothing excludes two requests that
have both read an incident: the second one to commit finds it resolved and resolves
it again. In the runs of one schedule in which no request commits while another has its
incident (`Undisturbed`), every incident is resolved once. -/
namespace Statement.System
open Domain Foundation Wiring
open Verification (Verifier VerifierRequest SameRows Recording Committed outcome)

/-- Any other transaction. Whatever it commits, the verifier's tables are as they were. -/
structure OtherWrite where
  apply : Database → Option Database
  verified : ∀ d d', apply d = some d' → d'.customerAccountLedgerVerified = d.customerAccountLedgerVerified
  discrepancy : ∀ d d', apply d = some d' →
    d'.customerAccountLedgerDiscrepancy = d.customerAccountLedgerDiscrepancy

inductive IncidentRequest where
  | resolve (r : ResolveRequest)
  | verify (r : VerifierRequest)
  | other (w : OtherWrite)

inductive IncidentParty where
  | resolve (x : Resolver)
  | verify (v : Verifier)
  | other (w : OtherWrite)

namespace IncidentParty

def statement (i : Input) (d : Database) (free : Lock → Bool) :
    IncidentParty → Option (List Lock × IncidentParty)
  | .resolve x => (x.statement d).map fun y => (y.1, .resolve y.2)
  | .verify v => (v.statement i.now i.scan d free).map fun y => (y.1, .verify y.2)
  | .other _ => none

def commit (d : Database) : IncidentParty → Option Database
  | .resolve x => x.commit d
  | .verify v => v.commit d
  | .other w => w.apply d

/-- The incident that a party acts on. -/
def incidentId : IncidentParty → Option Nat
  | .resolve x => x.incident.map (·.discrepancyId)
  | _ => none

end IncidentParty

def IncidentParty.start : IncidentRequest → IncidentParty
  | .resolve r => .resolve ⟨r, .begun⟩
  | .verify r => .verify ⟨r, .begun⟩
  | .other w => .other w

def incidents : Program IncidentRequest Database IncidentParty Lock Input where
  start := IncidentParty.start
  statement := IncidentParty.statement
  commit := IncidentParty.commit

theorem Party.commit_others {l : Party} (hl : ∀ v, l ≠ .verify v) {d d' : Database}
    (hc : l.commit d = some d') :
    d'.customerAccountLedgerVerified = d.customerAccountLedgerVerified ∧
      d'.customerAccountLedgerDiscrepancy = d.customerAccountLedgerDiscrepancy := by
  cases l with
  | create c =>
    obtain ⟨_, _, _, _, _, rfl⟩ := Account.Create.commit_some hc
    exact ⟨rfl, rfl⟩
  | change c =>
    rcases Account.Change.commit_some hc with ⟨_, rfl⟩ | ⟨_, _, _, _, _, _, _, rfl⟩
    · exact ⟨rfl, rfl⟩
    · exact ⟨rfl, rfl⟩
  | payment j =>
    rcases Payment.Job.commit_some hc with ⟨_, rfl⟩ | ⟨_, _, _, _, rfl⟩
    · exact ⟨rfl, rfl⟩
    · exact ⟨rfl, rfl⟩
  | verify v => exact absurd rfl (hl v)

/-- The other parties of the service commit nothing else. -/
def OtherWrite.ofParty (l : Party) (hl : ∀ v, l ≠ .verify v) : OtherWrite where
  apply := l.commit
  verified _ _ hc := (Party.commit_others hl hc).1
  discrepancy _ _ hc := (Party.commit_others hl hc).2

/-! ### What a commit does to the incidents -/

/-- Every open incident was found right after the latest checkpoint. -/
def Anchored (d : Database) : Prop :=
  ∀ a i, d.findOpenDiscrepancy a = some i → i.prevNo = ResolveRequest.anchorNo d a

/-- A resolved incident stays, as it was resolved. -/
def KeepsResolved (d d' : Database) : Prop :=
  ∀ i ∈ d.customerAccountLedgerDiscrepancy.rows, i.resolvedAt ≠ none →
    i ∈ d'.customerAccountLedgerDiscrepancy.rows

section
variable {d d' s : Database} {a : UUID} {r : ResolveRequest} {i : CustomerAccountLedgerDiscrepancy}
  {throughNo : Int} {balance : Numeric} {batch : List UUID}

theorem OtherWrite.sameRows (w : OtherWrite) (h : w.apply d = some d') (a : UUID) : SameRows a d d' :=
  ⟨by rw [w.verified d d' h], by rw [w.discrepancy d d' h]⟩

theorem accepted_keeps (hi : d.findOpenDiscrepancy r.accountId = some i) :
    KeepsResolved d (r.accepted i throughNo balance d) := by
  obtain ⟨hmem, _, hopen⟩ := ResolveRequest.findOpen_mem hi
  intro j hj hresolved
  have hid : j.discrepancyId ≠ i.discrepancyId := fun he =>
    hresolved (Database.discrepancy_unique hmem hj he ▸ hopen)
  exact List.mem_map.mpr ⟨j, hj, if_neg hid⟩

/-- The incident is among the rows, resolved. -/
theorem accepted_resolves (hi : d.findOpenDiscrepancy r.accountId = some i) :
    ∃ j ∈ (r.accepted i throughNo balance d).customerAccountLedgerDiscrepancy.rows,
      j.discrepancyId = i.discrepancyId ∧ j.resolvedAt ≠ none := by
  obtain ⟨hmem, _⟩ := ResolveRequest.findOpen_mem hi
  refine ⟨_, List.mem_map_of_mem hmem, ?_⟩
  simp [Database.resolveRow]

theorem Anchored.sameRows (h : Anchored d) (hsame : SameRows a d d') :
    d'.findOpenDiscrepancy a = some i → i.prevNo = ResolveRequest.anchorNo d' a := by
  intro hi
  rw [ResolveRequest.anchorNo, hsame.findLatestCheckpoint]
  exact h a i (hsame.findOpenDiscrepancy.symm.trans hi)

theorem Anchored.accepted (h : Anchored d) (hi : d.findOpenDiscrepancy r.accountId = some i) :
    Anchored (r.accepted i throughNo balance d) := by
  intro a j hj
  by_cases ha : a = r.accountId
  · obtain ⟨hmem, haccount, hopen⟩ := ResolveRequest.findOpen_mem hi
    have hnone := Database.findOpenDiscrepancy_resolve
      (d := d.addCheckpoint r.accountId throughNo balance r.verifiedAt) hmem hopen r.sub r.resolvedAt a
    rw [if_pos (ha.trans haccount.symm)] at hnone
    exact nomatch hnone.symm.trans hj
  · exact h.sameRows (accepted_sameRows hi ha) hj

/-- A verifier run records its incidents where it banks its checkpoints. -/
theorem Anchored.recorded (h : Anchored d) (hc : Committed s d d' batch) : Anchored d' := by
  intro a i hi
  by_cases ha : a ∈ batch
  · obtain ⟨windowRows, hadvance⟩ := hc.advanced a ha
    have hincident : (outcome d' a).incident =
        some ⟨i.no, i.kind, i.prevNo, i.expectedBalance, i.actualBalance⟩ := congrArg (Option.map _) hi
    rw [ResolveRequest.anchorNo_eq]
    exact Verification.Outcome.advance_prev hadvance _ hincident
  · exact h.sameRows (hc.others a ha) hi

end

/-! ### What the parties believe -/

/-- A request believes what it has read. A verifier run that is past its lock holds
it, and the accounts of its batch are as it has read them. -/
def Believes (schedule : Nat) (H : Set Lock) (d : Database) : IncidentParty → Prop
  | .resolve x => x.Current d
  | .verify v => v.request.scheduleId = schedule ∧
    match v.phase with
    | .locked => .advisory schedule ∈ H
    | .writing snapshot done todo => .advisory schedule ∈ H ∧ Recording snapshot done todo d
    | _ => True
  | .other _ => True

section
variable {schedule : Nat} {H H' : Set Lock} {d d' s : Database} {batch : List UUID}

theorem believes_start {q : IncidentRequest} (hschedule : ∀ r, q = .verify r → r.scheduleId = schedule) :
    Believes schedule H d (.start q) := by
  cases q with
  | resolve r => exact .idle rfl rfl
  | verify r => exact ⟨hschedule r rfl, trivial⟩
  | other w => exact trivial

theorem believes_statement {i : Input} {free : Lock → Bool} {l l' : IncidentParty} {ks : List Lock}
    (h : Believes schedule H d l) (hst : l.statement i d free = some (ks, l')) :
    Believes schedule (H ∪ {k | k ∈ ks}) d l' := by
  cases l with
  | resolve x =>
    obtain ⟨⟨ks, x'⟩, hx, he⟩ := Option.map_eq_some_iff.mp hst
    cases he
    exact Resolver.Current.statement h hx
  | verify v =>
    obtain ⟨⟨ks, v'⟩, hv, he⟩ := Option.map_eq_some_iff.mp hst
    cases he
    obtain ⟨r, phase⟩ := v
    obtain ⟨r', phase'⟩ := v'
    obtain ⟨hschedule, h⟩ := h
    obtain ⟨rfl, hstep⟩ := Verifier.statement_some hv
    cases hstep with
    | locked _ =>
      exact ⟨hschedule, .inr (List.mem_singleton.mpr (congrArg Lock.advisory hschedule.symm))⟩
    | skipped _ => exact ⟨hschedule, trivial⟩
    | read hscan _ => exact ⟨hschedule, .inl h, Recording.start hscan⟩
    | outOfRange _ => exact ⟨hschedule, trivial⟩
    | refused _ _ => exact ⟨hschedule, trivial⟩
    | written _ _ => exact ⟨hschedule, .inl h.1, h.2.write i.now⟩
  | other w => cases hst

/-- A commit that leaves the rows of every account. -/
theorem believes_sameRows {l : IncidentParty} (h : Believes schedule H d l) (hsame : ∀ a, SameRows a d d') :
    Believes schedule H d' l := by
  cases l with
  | resolve x => exact h.sameRows (hsame _)
  | verify v =>
    obtain ⟨r, phase⟩ := v
    cases phase with
    | writing snapshot done todo =>
      exact ⟨h.1, h.2.1, h.2.2.stable fun a _ => (hsame a).outcome⟩
    | begun => exact h
    | locked => exact h
    | skipped => exact h
    | raised => exact h
  | other w => exact trivial

/-- A commit of a request: the accounts in batches have no incident, and the other
requests have other ones. -/
theorem believes_accepted {r : ResolveRequest} {i : CustomerAccountLedgerDiscrepancy} {throughNo : Int}
    {balance : Numeric} (hi : d.findOpenDiscrepancy r.accountId = some i) {l : IncidentParty}
    (h : Believes schedule H d l) (hother : l.incidentId ≠ some i.discrepancyId) :
    Believes schedule H (r.accepted i throughNo balance d) l := by
  cases l with
  | resolve x =>
    cases hx : x.incident with
    | none => exact .idle hx (Resolver.throughNo_none hx)
    | some j =>
      refine h.sameRows (accepted_sameRows hi fun ha => hother ?_)
      have hj := h.opened j hx
      rw [ha, hi] at hj
      simp [IncidentParty.incidentId, hx, Option.some.inj hj]
  | verify v =>
    obtain ⟨q, phase⟩ := v
    cases phase with
    | writing snapshot done todo =>
      refine ⟨h.1, h.2.1, h.2.2.stable fun a hnone => ?_⟩
      refine (accepted_sameRows hi fun ha => ?_).outcome
      rw [ha, hi] at hnone
      cases hnone
    | begun => exact h
    | locked => exact h
    | skipped => exact h
    | raised => exact h
  | other w => exact trivial

/-- A commit of a verifier run: no other run is past its lock, and the accounts of
its batch have no incident that a request could have read. -/
theorem believes_recorded (hc : Committed s d d' batch) (hheld : .advisory schedule ∈ H)
    (hcompatible : Compatible H H') {l : IncidentParty} (h : Believes schedule H' d l) :
    Believes schedule H' d' l := by
  cases l with
  | resolve x =>
    cases hx : x.incident with
    | none => exact .idle hx (Resolver.throughNo_none hx)
    | some j =>
      refine h.sameRows (hc.others _ fun ha => ?_)
      exact nomatch (hc.idle _ ha).symm.trans (h.opened j hx)
  | verify v =>
    obtain ⟨q, phase⟩ := v
    cases phase with
    | writing snapshot done todo => exact absurd h.2.1 (hcompatible.exclusive List.mem_cons_self hheld)
    | begun => exact h
    | locked => exact h
    | skipped => exact h
    | raised => exact h
  | other w => exact trivial

end

end Statement.System
