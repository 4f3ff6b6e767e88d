import Statement.Foundation.Transaction

/-! Waiting for locks.

A statement waits while another transaction holds a lock that conflicts with one that
it takes. A contract is `Ranked` when local states have ranks that go down from who
waits to whom it waits for. Then no chain of waiting is longer than the ranks are high,
it ends with somebody who does not wait, and there are no cycles: nothing is
deadlocked. -/
namespace Statement.Foundation

variable {T R D L K I : Type} [Conflicting K] {P : Program R D L K I} {Allowed : R → Prop}

/-- Some statement of `t` takes a lock that conflicts with one that `u` holds. -/
def Waits (P : Program R D L K I) (w : World T D L K) [DecidableEq T] (t u : T) : Prop :=
  ∃ i l ks l' k k', w.running t = some l ∧ P.statement i w.committed (w.available t) l = some (ks, l') ∧
    k ∈ ks ∧ k' ∈ conflicts k ∧ u ∈ w.holders k' ∧ u ≠ t

section
variable [DecidableEq T] [DecidableEq K]

/-- `t` can run a statement, or commit. -/
def Moves (P : Program R D L K I) (w : World T D L K) (t : T) : Prop :=
  (∃ i w', w.next P (.statement t i) = some w') ∨ ∃ w', w.next P (.commit t) = some w'

/-- Who has a statement to run runs it or waits for somebody. -/
theorem moves_or_waits {w : World T D L K} {t : T} {l : L} (hl : w.running t = some l) {i : I}
    {ks : List K} {l' : L} (hst : P.statement i w.committed (w.available t) l = some (ks, l')) :
    Moves P w t ∨ ∃ u, Waits P w t u := by
  by_cases hks : ks.all (w.available t) = true
  · refine .inl (.inl ⟨i, w.grant t l' ks, ?_⟩)
    simp only [World.next, hl, Option.bind_eq_bind, Option.bind_some, hst, if_pos hks]
  · obtain ⟨k, hk, htaken⟩ : ∃ k ∈ ks, ¬ w.available t k = true := by simpa using hks
    obtain ⟨k', hk', u, hu, hne⟩ : ∃ k' ∈ conflicts k, ∃ u ∈ w.holders k', u ≠ t := by
      simpa [World.available_iff] using htaken
    exact .inr ⟨u, i, l, ks, l', k, k', hl, hst, hk, hk', hu, hne⟩

end

namespace Contract

/-- Who takes a lock ranks above whoever holds one that conflicts with it. -/
def Ranked (C : Contract P Allowed) (rank : L → Nat) : Prop :=
  ∀ i d free H H' l m ks l', C.Inv d → C.Holds H d l → C.Holds H' d m → Compatible H H' →
    (∀ k, free k = true → ∀ k' ∈ conflicts k, k' ∉ H') → P.statement i d free l = some (ks, l') →
      ∀ k ∈ ks, ∀ k' ∈ conflicts k, k' ∈ H' → rank m < rank l

variable [DecidableEq T] {C : Contract P Allowed} {rank : L → Nat} {w : World T D L K} {t u : T}

/-- **Who waits ranks above whom it waits for**, who is running. -/
theorem Valid.rank_lt (h : C.Valid w) (hC : C.Ranked rank) (hw : Waits P w t u) :
    ∃ l m, w.running t = some l ∧ w.running u = some m ∧ rank m < rank l := by
  obtain ⟨i, l, ks, l', k, k', hl, hst, hk, hk', hholder, hne⟩ := hw
  cases hm : w.running u with
  | none =>
    have hheld : k' ∈ w.holds u := hholder
    rw [h.idle u hm] at hheld
    cases hheld
  | some m =>
    refine ⟨l, m, hl, rfl, ?_⟩
    refine hC i w.committed (w.available t) _ _ l m ks l' h.inv (h.holds t l hl) (h.holds u m hm)
      (h.compatible t u hne) (fun k hfree k' hk' hheld => ?_) hst k hk k' hk' hholder
    exact hne (World.available_iff.mp hfree k' hk' u hheld)

/-- There is no cycle of waiting. -/
theorem Valid.not_waits_cycle (h : C.Valid w) (hC : C.Ranked rank) (t : T) :
    ¬ Relation.TransGen (Waits P w) t t := by
  have hdown : ∀ u, Relation.TransGen (Waits P w) t u →
      ∃ l m, w.running t = some l ∧ w.running u = some m ∧ rank m < rank l := by
    intro u hchain
    induction hchain with
    | single hw => exact h.rank_lt hC hw
    | tail _ hw ih =>
      obtain ⟨l, m, hl, hm, hlt⟩ := ih
      obtain ⟨m', n, hm', hn, hlt'⟩ := h.rank_lt hC hw
      rw [hm] at hm'
      cases hm'
      exact ⟨l, n, hl, hn, hlt'.trans hlt⟩
  intro hcycle
  obtain ⟨l, m, hl, hm, hlt⟩ := hdown t hcycle
  rw [hl] at hm
  cases hm
  exact lt_irrefl _ hlt

/-- Where everybody goes or waits, every chain of waiting ends with somebody who goes. -/
theorem Valid.exists_goes (h : C.Valid w) (hC : C.Ranked rank) {Goes : T → Prop}
    (hgoes : ∀ t l, w.running t = some l → Goes t ∨ ∃ u, Waits P w t u) {l : L} (hl : w.running t = some l) :
    ∃ u, Relation.ReflTransGen (Waits P w) t u ∧ w.running u ≠ none ∧ Goes u := by
  induction hn : rank l using Nat.strong_induction_on generalizing t l with
  | _ n ih =>
    rcases hgoes t l hl with hgo | ⟨u, hw⟩
    · exact ⟨t, .refl, by simp [hl], hgo⟩
    · obtain ⟨l', m, hl', hm, hlt⟩ := h.rank_lt hC hw
      rw [hl] at hl'
      cases hl'
      obtain ⟨v, hchain, hv⟩ := ih (rank m) (hn ▸ hlt) hm rfl
      exact ⟨v, .head hw hchain, hv⟩

end Contract
end Statement.Foundation
