import Statement.System.Incidents

/-! An incident is resolved once, in the runs of one schedule that are undisturbed.

`ResolvedOnce` is what the data and its history say about it: no two requests that
committed have acted on one incident, what was resolved stays as it was resolved,
and whoever is about to commit acts on an incident that is still open and still
belongs to the latest checkpoint. `overlapping` is a run of two requests in which
all of this fails. -/
namespace Statement.System
open Domain Foundation Wiring
open Verification (Verifier SameRows)

abbrev Incidents (T : Type) := World T Database IncidentParty Lock

abbrev IncidentStep (T : Type) := Action T IncidentRequest Input

/-- No request commits while another that has read the same incident is running. -/
def Undisturbed {T : Type} (w : Incidents T) : IncidentStep T → Prop
  | .commit t => ∀ u, u ≠ t → ∀ id ∈ (w.running t).bind IncidentParty.incidentId,
      id ∉ (w.running u).bind IncidentParty.incidentId
  | _ => True

instance {T : Type} [DecidableEq T] [Fintype T] (w : Incidents T) :
    ∀ a : IncidentStep T, Decidable (Undisturbed w a)
  | .commit t => inferInstanceAs (Decidable (∀ u, u ≠ t → ∀ id ∈ (w.running t).bind _,
      id ∉ (w.running u).bind _))
  | .begin _ _ | .statement _ _ | .rollback _ => isTrue trivial

structure ResolvedOnce {T : Type} (x : Audit T Database IncidentParty Lock) : Prop where
  once : (x.commits.filterMap IncidentParty.incidentId).Nodup
  settled : x.states.Pairwise KeepsResolved
  founded : ∀ t p d', x.world.running t = some (.resolve p) → p.commit x.world.committed = some d' →
    ∃ i, p.incident = some i ∧ x.world.committed.findOpenDiscrepancy p.request.accountId = some i ∧
      i.prevNo = ResolveRequest.anchorNo x.world.committed p.request.accountId

/-! ### The invariant -/

/-- The open incidents belong to the latest checkpoints, and what the parties
believe is true. -/
structure Upheld {T : Type} (schedule : Nat) (w : Incidents T) : Prop where
  anchored : Anchored w.committed
  asserted : w.Asserted fun H l => Believes schedule H w.committed l

theorem Upheld.initial {T : Type} {schedule : Nat} {d : Database} (h : Unverified d) :
    Upheld schedule (World.initial d : Incidents T) := by
  refine ⟨fun a i hi => ?_, .initial d⟩
  have hmem := List.mem_of_find?_eq_some hi
  rw [show (World.initial d : Incidents T).committed = d from rfl, h.incidents] at hmem
  cases hmem

/-- A request that commits finds its incident open and leaves it resolved; no commit
touches a resolved one. -/
theorem Upheld.commit_incidents {T : Type} {schedule : Nat} {w : Incidents T} (h : Upheld schedule w)
    {t : T} {l : IncidentParty} {d : Database} (hl : w.running t = some l)
    (hc : l.commit w.committed = some d) :
    KeepsResolved w.committed d ∧ ∀ id, l.incidentId = some id →
      (∃ i ∈ w.committed.customerAccountLedgerDiscrepancy.rows,
        i.discrepancyId = id ∧ i.resolvedAt = none) ∧
      ∃ j ∈ d.customerAccountLedgerDiscrepancy.rows, j.discrepancyId = id ∧ j.resolvedAt ≠ none := by
  cases l with
  | resolve x =>
    obtain ⟨i, n, balance, hx, rfl⟩ := Resolver.commit_some hc
    have hi : w.committed.findOpenDiscrepancy x.request.accountId = some i :=
      Resolver.Current.opened (h.asserted.holds t _ hl) i (by rw [hx]; rfl)
    obtain ⟨hmem, _, hopen⟩ := ResolveRequest.findOpen_mem hi
    refine ⟨accepted_keeps hi, fun id hid => ?_⟩
    rw [hx] at hid
    cases hid
    exact ⟨⟨i, hmem, rfl, hopen⟩, accepted_resolves hi⟩
  | verify v =>
    refine ⟨fun i hi _ => ?_, fun id hid => (nomatch hid)⟩
    rcases Verifier.commit_some hc with ⟨_, rfl⟩ | ⟨snapshot, done, _, happlied⟩
    · exact hi
    · exact Verification.applyAll_incidents happlied hi
  | other write =>
    refine ⟨fun i hi _ => ?_, fun id hid => (nomatch hid)⟩
    rw [write.discrepancy _ _ hc]
    exact hi

section
variable {T : Type} [DecidableEq T] {schedule : Nat} {w w' : Incidents T} {a : IncidentStep T}

/-- A commit, by the party that makes it. -/
theorem Upheld.commit (h : Upheld schedule w) {t : T} {l : IncidentParty} {d : Database}
    (hl : w.running t = some l) (hundisturbed : Undisturbed w (.commit t))
    (hc : l.commit w.committed = some d) : Upheld schedule (w.finish t d) := by
  have hbelieves := h.asserted.holds t l hl
  cases l with
  | resolve x =>
    obtain ⟨i, n, balance, hx, rfl⟩ := Resolver.commit_some hc
    have hi : w.committed.findOpenDiscrepancy x.request.accountId = some i :=
      Resolver.Current.opened hbelieves i (by rw [hx]; rfl)
    have hid : (w.running t).bind IncidentParty.incidentId = some i.discrepancyId := by
      rw [hl, hx]
      rfl
    refine ⟨h.anchored.accepted hi, h.asserted.finish t _ fun u m hut hm => ?_⟩
    refine believes_accepted hi (h.asserted.holds u m hm) fun hm' => ?_
    refine hundisturbed u hut i.discrepancyId hid ?_
    rw [hm]
    exact hm'
  | verify v =>
    rcases Verifier.commit_some hc with ⟨_, rfl⟩ | ⟨snapshot, done, hphase, happlied⟩
    · exact ⟨h.anchored, h.asserted.finish t _ fun u m _ hm => h.asserted.holds u m hm⟩
    · obtain ⟨_, hwriting⟩ := hbelieves
      rw [hphase] at hwriting
      obtain ⟨batch, hcommitted⟩ := hwriting.2.commit happlied
      refine ⟨h.anchored.recorded hcommitted, h.asserted.finish t _ fun u m hut hm => ?_⟩
      exact believes_recorded hcommitted hwriting.1 (h.asserted.compatible t u hut) (h.asserted.holds u m hm)
  | other write =>
    have hsame := write.sameRows hc
    refine ⟨fun a i hi => h.anchored.sameRows (hsame a) hi, h.asserted.finish t _ fun u m _ hm => ?_⟩
    exact believes_sameRows (h.asserted.holds u m hm) hsame

/-- What one step preserves. -/
theorem Upheld.next (h : Upheld schedule w)
    (hschedule : ∀ t r, a = .begin t (.verify r) → r.scheduleId = schedule)
    (hundisturbed : Undisturbed w a) (hw : w.next incidents a = some w') : Upheld schedule w' := by
  cases a with
  | begin t q =>
    obtain ⟨ht, rfl⟩ := World.next_begin hw
    refine ⟨h.anchored, h.asserted.begin t _ ht (believes_start fun r hq => hschedule t r ?_)⟩
    rw [hq]
  | statement t i =>
    obtain ⟨l, ks, l', hl, hst, hks, rfl⟩ := World.next_statement hw
    exact ⟨h.anchored, h.asserted.statement t l l' ks hl hks
      (believes_statement (h.asserted.holds t l hl) hst)⟩
  | commit t =>
    obtain ⟨l, d, hl, hc, rfl⟩ := World.next_commit hw
    exact h.commit hl hundisturbed hc
  | rollback t =>
    obtain ⟨_, rfl⟩ := World.next_rollback hw
    exact ⟨h.anchored, h.asserted.finish t _ fun u m _ hm => h.asserted.holds u m hm⟩

end

/-! ### The history -/

theorem KeepsResolved.refl (d : Database) : KeepsResolved d d := fun _ hi _ => hi

theorem KeepsResolved.trans (d d' d'' : Database) (h : KeepsResolved d d') (h' : KeepsResolved d' d'') :
    KeepsResolved d d'' := fun i hi hresolved => h' i (h i hi hresolved) hresolved

/-- Whatever a committed request has acted on is resolved. -/
structure Resolutions {T : Type} (schedule : Nat) (x : Audit T Database IncidentParty Lock) : Prop where
  upheld : Upheld schedule x.world
  once : (x.commits.filterMap IncidentParty.incidentId).Nodup
  resolved : ∀ id ∈ x.commits.filterMap IncidentParty.incidentId,
    ∃ i ∈ x.world.committed.customerAccountLedgerDiscrepancy.rows,
      i.discrepancyId = id ∧ i.resolvedAt ≠ none
  progressive : x.Progressive KeepsResolved

namespace Resolutions
variable {T : Type} [DecidableEq T] {schedule : Nat} {x y : Audit T Database IncidentParty Lock}
  {a : IncidentStep T}

/-- A step that commits nothing new. -/
theorem stay (h : Resolutions schedule x) (hupheld : Upheld schedule y.world)
    (hnext : x.next incidents a = some y) (hnone : Audit.committer x.world a = [])
    (hsame : y.world.committed = x.world.committed) : Resolutions schedule y := by
  have hcommits : y.commits = x.commits := by
    rw [(Audit.next_some hnext).2.2, hnone, List.append_nil]
  refine ⟨hupheld, hcommits ▸ h.once, ?_, ?_⟩
  · rw [hcommits, hsame]
    exact h.resolved
  · exact h.progressive.next KeepsResolved.refl KeepsResolved.trans hnext (hsame ▸ KeepsResolved.refl _)

theorem commit (h : Resolutions schedule x) (hupheld : Upheld schedule y.world) {t : T}
    (hnext : x.next incidents (.commit t) = some y) : Resolutions schedule y := by
  obtain ⟨hworld, _, hcommits⟩ := Audit.next_some hnext
  obtain ⟨l, d, hl, hc, hy⟩ := World.next_commit hworld
  obtain ⟨hkeeps, hacted⟩ := h.upheld.commit_incidents hl hc
  have hd : y.world.committed = d := by
    rw [hy]
    rfl
  have hids : y.commits.filterMap IncidentParty.incidentId =
      x.commits.filterMap IncidentParty.incidentId ++ l.incidentId.toList := by
    rw [hcommits, List.filterMap_append, Audit.committer, hl]
    cases hid : l.incidentId <;> simp [hid]
  refine ⟨hupheld, ?_, fun id hid => ?_, ?_⟩
  · rw [hids, List.nodup_append]
    refine ⟨h.once, by cases l.incidentId <;> simp, fun id hid id' hid' he => ?_⟩
    -- the incident was open, so no committed request had acted on it
    subst he
    obtain ⟨i, hi, hopenId, hopen⟩ := (hacted id (Option.mem_toList.mp hid')).1
    obtain ⟨j, hj, hresolvedId, hresolved⟩ := h.resolved id hid
    obtain rfl : j = i := Database.discrepancy_unique hi hj (hresolvedId.trans hopenId.symm)
    exact hresolved hopen
  · rw [hids] at hid
    rw [hd]
    rcases List.mem_append.mp hid with hid | hid
    · obtain ⟨i, hi, hresolvedId, hresolved⟩ := h.resolved id hid
      exact ⟨i, hkeeps i hi hresolved, hresolvedId, hresolved⟩
    · exact (hacted id (Option.mem_toList.mp hid)).2
  · exact h.progressive.next KeepsResolved.refl KeepsResolved.trans hnext (hd.symm ▸ hkeeps)

/-- What one step preserves. -/
theorem next (h : Resolutions schedule x)
    (hschedule : ∀ t r, a = .begin t (.verify r) → r.scheduleId = schedule)
    (hundisturbed : Undisturbed x.world a) (hnext : x.next incidents a = some y) :
    Resolutions schedule y := by
  have hworld := (Audit.next_some hnext).1
  have hupheld := h.upheld.next hschedule hundisturbed hworld
  cases a with
  | commit t => exact h.commit hupheld hnext
  | begin t r =>
    refine h.stay hupheld hnext rfl ?_
    rw [(World.next_begin hworld).2]
  | statement t i =>
    obtain ⟨_, _, _, _, _, _, hw⟩ := World.next_statement hworld
    refine h.stay hupheld hnext rfl ?_
    rw [hw, World.grant_committed]
  | rollback t =>
    refine h.stay hupheld hnext rfl ?_
    rw [(World.next_rollback hworld).2]
    rfl

end Resolutions

/-- **An incident is resolved once**, in every run from the first verification on whose
verifier runs are of one schedule and in which no request commits while another has its
incident. -/
theorem incident_resolved_once {T : Type} [DecidableEq T] (schedule : Nat) (d : Database)
    (hd : Unverified d) (as : List (IncidentStep T)) (x : Audit T Database IncidentParty Lock)
    (hrun : (Audit.start d).run incidents as = some x)
    (hschedule : ∀ t r, Action.begin t (.verify r) ∈ as → r.scheduleId = schedule)
    (hundisturbed : (Audit.start d).Meets incidents Undisturbed as) : ResolvedOnce x := by
  have hstart : Resolutions schedule (Audit.start d : Audit T Database IncidentParty Lock) :=
    ⟨.initial hd, List.nodup_nil, fun id hid => (nomatch hid), .start KeepsResolved.refl d⟩
  have h := Audit.run_meets (Resolutions schedule)
    (fun _ _ _ ha h hc hnext => h.next (fun t r he => hschedule t r (he ▸ ha)) hc hnext) hstart hundisturbed hrun
  refine ⟨h.once, h.progressive.pairwise, fun t p d' hp hc => ?_⟩
  obtain ⟨i, n, balance, hphase, _⟩ := Resolver.commit_some hc
  have hincident : p.incident = some i := by
    rw [hphase]
    rfl
  have hi := Resolver.Current.opened (h.upheld.asserted.holds t _ hp) i hincident
  exact ⟨i, hincident, hi, h.upheld.anchored _ i hi⟩

/-! ### Two requests on one incident -/

/-- Row 2 is missing, and nobody has noticed. -/
def unnoticed : Database :=
  { ResolveRequest.quarantined with customerAccountLedgerDiscrepancy := .empty }

def input : Input := ⟨5, [.create 1 2 .eur none 3 0]⟩

/-- Lock, batch and both writes. -/
def noticing (t : Bool) : List (IncidentStep Bool) :=
  [.begin t (.verify ⟨1, 100, 10, 0⟩), .statement t input, .statement t input, .statement t input,
    .statement t input, .commit t]

/-- Lock and a batch of nothing. -/
def quiet (t : Bool) : List (IncidentStep Bool) :=
  [.begin t (.verify ⟨1, 100, 10, 0⟩), .statement t input, .statement t input, .commit t]

/-- The caller 12 asks for what the caller 9 asks for. -/
def acceptAgain : ResolveRequest := { ResolveRequest.acceptRow with sub := 12, resolvedAt := 20 }

/-- Both read the incident, and one after the other they resolve it. -/
def overlapping : List (IncidentStep Bool) :=
  noticing true ++
    [.begin true (.resolve ResolveRequest.acceptRow), .begin false (.resolve acceptAgain),
      .statement true input, .statement false input, .statement true input, .statement false input,
      .statement true input, .statement false input] ++
    [.statement true input, .statement true input, .statement true input, .commit true] ++
    [.statement false input, .statement false input, .statement false input, .commit false]

theorem overlapping_resolved_twice : Unverified unnoticed ∧
    ∃ x, (Audit.start unnoticed).run incidents overlapping = some x ∧
      x.commits.filterMap IncidentParty.incidentId = [1, 1] ∧
      (x.states.filterMap fun d => (d.findDiscrepancy 1 1).bind (·.resolvedBy)).dedup = [9, 12] ∧
      ¬ ResolvedOnce x := by
  have hrun : ((Audit.start unnoticed).run incidents overlapping).map (fun x =>
      (x.commits.filterMap IncidentParty.incidentId,
        (x.states.filterMap fun d => (d.findDiscrepancy 1 1).bind (·.resolvedBy)).dedup)) =
      some ([1, 1], [9, 12]) := by decide
  obtain ⟨x, hx, hfound⟩ := Option.map_eq_some_iff.mp hrun
  obtain ⟨hids, hresolvers⟩ := Prod.mk.inj hfound
  refine ⟨⟨rfl, rfl, by decide⟩, x, hx, hids, hresolvers, fun h => ?_⟩
  have := h.once
  rw [hids] at this
  exact absurd this (by decide)

/-- A verifier run comes between the statements of one request, and the second
request comes after the first. -/
def orderly : List (IncidentStep Bool) :=
  noticing true ++ [.begin true (.resolve ResolveRequest.acceptRow), .statement true input,
    .statement true input] ++ quiet false ++ [.statement true input, .statement true input,
    .statement true input, .statement true input, .commit true] ++
    [.begin false (.resolve acceptAgain), .statement false input, .rollback false]

theorem orderly_resolved_once : ∃ x, (Audit.start unnoticed).run incidents orderly = some x ∧
    x.commits.filterMap IncidentParty.incidentId = [1] ∧ ResolvedOnce x := by
  have hrun : ((Audit.start unnoticed).run incidents orderly).map (fun x =>
      x.commits.filterMap IncidentParty.incidentId) = some [1] := by decide
  obtain ⟨x, hx, hids⟩ := Option.map_eq_some_iff.mp hrun
  have hschedule : ∀ t r, Action.begin t (.verify r) ∈ orderly → r.scheduleId = 1 := by
    intro t r hr
    simp only [orderly, noticing, quiet, List.mem_append, List.mem_cons, Action.begin.injEq,
      IncidentRequest.verify.injEq, reduceCtorEq, and_false, or_false, List.not_mem_nil] at hr
    rcases hr with ⟨_, rfl⟩ | ⟨_, rfl⟩ <;> rfl
  exact ⟨x, hx, hids,
    incident_resolved_once 1 unnoticed ⟨rfl, rfl, by decide⟩ orderly x hx hschedule (by decide)⟩

end Statement.System
