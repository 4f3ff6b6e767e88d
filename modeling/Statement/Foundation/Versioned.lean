import Statement.Foundation.Query

/-! A row under optimistic locking.

A request reads a state of the row and is applied to what it has read. If that
changes the row its version moves on by one, and the request commits only while
the row is still what was read; if it changes nothing it may commit at any time.
`Serial` relates the states that the row has been in to the log of the requests
that have committed. Each way in which the two can grow keeps it, and it implies
that the log, replayed in the order of the versions read, leads from the first
state to the last (`Serial.replay`). -/
namespace Statement.Foundation

/-- What a request of type `ε` does with a row of type `σ`. -/
structure Versioned (σ ε : Type) where
  version : σ → Nat
  read : ε → σ
  apply : ε → σ → σ
  changes : ε → Bool

namespace Versioned
variable {σ ε : Type}

/-- The order of the versions read; who changes a version comes last in it. -/
def order (V : Versioned σ ε) (e : ε) : Nat ×ₗ Bool := toLex (V.version (V.read e), V.changes e)

/-- By how much a request moves the version on. -/
def bump (V : Versioned σ ε) (e : ε) : Nat := if V.changes e then 1 else 0

structure Serial (V : Versioned σ ε) (states : List σ) (log : List ε) (first last : σ) : Prop where
  head : states.head? = some first
  last_mem : last ∈ states
  between : ∀ s ∈ states, V.version first ≤ V.version s ∧ V.version s ≤ V.version last
  unique : ∀ s ∈ states, ∀ t ∈ states, V.version s = V.version t → s = t
  read : ∀ e ∈ log, V.read e ∈ states
  applied : ∀ e ∈ log, V.apply e (V.read e) ∈ states ∧
    V.version (V.apply e (V.read e)) = V.version (V.read e) + V.bump e
  once : ((log.filter V.changes).map fun e => V.version (V.read e)).Perm
    (List.range' (V.version first) (V.version last - V.version first))

namespace Serial
variable {V : Versioned σ ε} {states : List σ} {log : List ε} {first last : σ}

theorem start (V : Versioned σ ε) (s : σ) : Serial V [s] [] s s := by
  have hmem : ∀ t ∈ [s], t = s := fun t ht => List.mem_singleton.mp ht
  refine ⟨rfl, List.mem_singleton.mpr rfl, fun t ht => ?_, fun t ht u hu _ => ?_, fun _ h => (nomatch h),
    fun _ h => (nomatch h), ?_⟩
  · rw [hmem t ht]
    exact ⟨le_rfl, le_rfl⟩
  · rw [hmem t ht, hmem u hu]
  · simp

theorem first_mem (h : Serial V states log first last) : first ∈ states := List.mem_of_mem_head? h.head

theorem first_le_last (h : Serial V states log first last) : V.version first ≤ V.version last :=
  (h.between last h.last_mem).1

/-- The row is seen once more as it is. -/
theorem stay (h : Serial V states log first last) : Serial V (states ++ [last]) log first last := by
  have hmem : ∀ t ∈ states ++ [last], t ∈ states := by
    intro t ht
    rcases List.mem_append.mp ht with ht | ht
    · exact ht
    · exact List.mem_singleton.mp ht ▸ h.last_mem
  refine ⟨?_, by simp, fun s hs => h.between s (hmem s hs),
    fun s hs t ht => h.unique s (hmem s hs) t (hmem t ht), fun e he => List.mem_append_left _ (h.read e he),
    fun e he => ?_, h.once⟩
  · rw [List.head?_append, h.head]
    rfl
  · obtain ⟨hin, hversion⟩ := h.applied e he
    exact ⟨List.mem_append_left _ hin, hversion⟩

/-- A request that changes nothing commits. -/
theorem keep (h : Serial V states log first last) {e : ε} (hread : V.read e ∈ states)
    (hchanges : V.changes e = false) (happly : V.apply e (V.read e) = V.read e) :
    Serial V states (log ++ [e]) first last := by
  refine ⟨h.head, h.last_mem, h.between, h.unique, fun x hx => ?_, fun x hx => ?_, ?_⟩
  · rcases List.mem_append.mp hx with hx | hx
    · exact h.read x hx
    · exact List.mem_singleton.mp hx ▸ hread
  · rcases List.mem_append.mp hx with hx | hx
    · exact h.applied x hx
    · rw [List.mem_singleton.mp hx, happly, bump, hchanges]
      exact ⟨hread, rfl⟩
  · rw [List.filter_append, List.filter_cons_of_neg (by simp [hchanges]), List.filter_nil,
      List.append_nil]
    exact h.once

/-- A request that changes the row commits, on the row that it read. -/
theorem move (h : Serial V states log first last) {e : ε} {next : σ} (hread : V.read e = last)
    (hchanges : V.changes e = true) (happly : V.apply e last = next)
    (hversion : V.version next = V.version last + 1) :
    Serial V (states ++ [next]) (log ++ [e]) first next := by
  have hlt : ∀ s ∈ states, V.version s < V.version next := fun s hs =>
    hversion ▸ Nat.lt_succ_of_le (h.between s hs).2
  have hmem : ∀ {s}, s ∈ states ++ [next] → s ∈ states ∨ s = next := by simp
  refine ⟨?_, by simp, fun s hs => ?_, fun s hs t ht hst => ?_, fun x hx => ?_, fun x hx => ?_, ?_⟩
  · rw [List.head?_append, h.head]
    rfl
  · rcases hmem hs with hs | rfl
    · exact ⟨(h.between s hs).1, (hlt s hs).le⟩
    · exact ⟨(hlt first h.first_mem).le, le_rfl⟩
  · rcases hmem hs with hs | hs <;> rcases hmem ht with ht | ht
    · exact h.unique s hs t ht hst
    · exact absurd (hst.trans (congrArg V.version ht)) (hlt s hs).ne
    · exact absurd (hst.symm.trans (congrArg V.version hs)) (hlt t ht).ne
    · rw [hs, ht]
  · rcases List.mem_append.mp hx with hx | hx
    · exact List.mem_append_left _ (h.read x hx)
    · rw [List.mem_singleton.mp hx, hread]
      exact List.mem_append_left _ h.last_mem
  · rcases List.mem_append.mp hx with hx | hx
    · obtain ⟨hin, hversion⟩ := h.applied x hx
      exact ⟨List.mem_append_left _ hin, hversion⟩
    · rw [List.mem_singleton.mp hx, hread, happly, hversion, bump, hchanges]
      exact ⟨by simp, rfl⟩
  · have hlength : V.version next - V.version first = V.version last - V.version first + 1 := by
      have := h.first_le_last
      omega
    rw [List.filter_append, List.filter_cons_of_pos hchanges, List.filter_nil, List.map_append, hlength,
      List.range'_concat]
    refine h.once.append (.of_eq ?_)
    have := h.first_le_last
    simp only [List.map_cons, List.map_nil, hread, List.cons.injEq, and_true]
    omega

/-! ### What it says -/

/-- At most one request changes a version. -/
theorem changes_once (h : Serial V states log first last) :
    (log.filter V.changes).Pairwise fun e f => V.version (V.read e) ≠ V.version (V.read f) :=
  List.pairwise_map.mp (h.once.nodup_iff.mpr List.nodup_range')

/-- Every version but the first is a request's. -/
theorem version_last (h : Serial V states log first last) :
    V.version last = V.version first + (log.filter V.changes).length := by
  have hlength := h.once.length_eq
  rw [List.length_map, List.length_range'] at hlength
  have := h.first_le_last
  omega

theorem order_le {e f : ε} (hle : V.order e ≤ V.order f) :
    V.version (V.read e) ≤ V.version (V.read f) ∧
      (V.version (V.read e) = V.version (V.read f) → V.changes e ≤ V.changes f) := by
  rcases Prod.Lex.le_iff.mp hle with hlt | ⟨heq, hchanges⟩
  · exact ⟨hlt.le, fun he => absurd he hlt.ne⟩
  · exact ⟨heq.le, fun _ => hchanges⟩

/-- The first request in order has read the state that the rest starts from: its
version is changed by a request of the list, unless it is the last. -/
theorem read_first (h : Serial V states log first last) {e : ε} {l : List ε} {s : σ} (he : e ∈ log)
    (hs : s ∈ states) (hge : V.version s ≤ V.version (V.read e))
    (hle : ∀ f ∈ l, V.version (V.read e) ≤ V.version (V.read f))
    (hperm : (((e :: l).filter V.changes).map fun e => V.version (V.read e)).Perm
      (List.range' (V.version s) (V.version last - V.version s))) : V.read e = s := by
  refine h.unique _ (h.read e he) s hs (le_antisymm ?_ hge)
  have hbound := (h.between _ (h.read e he)).2
  by_cases hlast : V.version s = V.version last
  · omega
  · have hlt : V.version s < V.version last := lt_of_le_of_ne (h.between s hs).2 hlast
    have hin : V.version s ∈ ((e :: l).filter V.changes).map fun e => V.version (V.read e) :=
      hperm.mem_iff.mpr (List.mem_range'_1.mpr ⟨le_rfl, by omega⟩)
    obtain ⟨f, hf, hfs⟩ := List.mem_map.mp hin
    rcases List.mem_cons.mp (List.mem_filter.mp hf).1 with rfl | hf
    · exact hfs.le
    · exact hfs ▸ hle f hf

/-- A later request of the same version would change it a second time. -/
theorem past_change {e f : ε} {l : List ε} {n k : Nat} (hchanges : V.changes e = true) (hf : f ∈ l)
    (hread : V.version (V.read e) = n) (hle : V.order e ≤ V.order f)
    (hperm : ((l.filter V.changes).map fun e => V.version (V.read e)).Perm (List.range' (n + 1) k)) :
    n + 1 ≤ V.version (V.read f) := by
  obtain ⟨hnle, hsame⟩ := order_le hle
  rw [hread] at hnle hsame
  refine Nat.lt_of_le_of_ne hnle fun heq => ?_
  have hfchanges : V.changes f = true := by
    have := hsame heq
    rw [hchanges] at this
    exact Bool.eq_true_of_true_le this
  have hin : V.version (V.read f) ∈ (l.filter V.changes).map fun e => V.version (V.read e) :=
    List.mem_map.mpr ⟨f, List.mem_filter.mpr ⟨hf, hfchanges⟩, rfl⟩
  have := (List.mem_range'_1.mp (hperm.mem_iff.mp hin)).1
  omega

/-- Requests in order, from the state that the first of them has read on. -/
theorem replay_from (h : Serial V states log first last) (l : List ε) (hl : ∀ e ∈ l, e ∈ log)
    (hsorted : l.Pairwise fun e f => V.order e ≤ V.order f) (s : σ) (hs : s ∈ states)
    (hge : ∀ e ∈ l, V.version s ≤ V.version (V.read e))
    (hperm : ((l.filter V.changes).map fun e => V.version (V.read e)).Perm
      (List.range' (V.version s) (V.version last - V.version s))) :
    l.foldl (fun s e => V.apply e s) s = last := by
  induction l generalizing s with
  | nil =>
    have hlength := hperm.length_eq
    simp only [List.filter_nil, List.map_nil, List.length_nil, List.length_range'] at hlength
    have hle := (h.between s hs).2
    exact h.unique s hs last h.last_mem (by omega)
  | cons e l ih =>
    obtain ⟨hfirst, hsorted⟩ := List.pairwise_cons.mp hsorted
    have hlog := hl e List.mem_cons_self
    have hread : V.read e = s := h.read_first hlog hs (hge e List.mem_cons_self)
      (fun f hf => (order_le (hfirst f hf)).1) hperm
    obtain ⟨hnext, hversion⟩ := h.applied e hlog
    rw [hread] at hnext hversion
    have hl' : ∀ f ∈ l, f ∈ log := fun f hf => hl f (List.mem_cons_of_mem e hf)
    rw [List.foldl_cons]
    cases hchanges : V.changes e with
    | false =>
      have hsame : V.apply e s = s := by
        refine h.unique _ hnext s hs ?_
        rw [hversion, bump, hchanges]
        rfl
      rw [hsame]
      refine ih hl' hsorted s hs (fun f hf => hge f (List.mem_cons_of_mem e hf)) ?_
      rwa [List.filter_cons_of_neg (by simp [hchanges])] at hperm
    | true =>
      have hversion : V.version (V.apply e s) = V.version s + 1 := by
        rw [hversion, bump, hchanges]
        rfl
      have hrange : List.range' (V.version s) (V.version last - V.version s) =
          V.version s :: List.range' (V.version s + 1) (V.version last - (V.version s + 1)) := by
        have hbound := (h.between _ hnext).2
        rw [hversion] at hbound
        rw [show V.version last - V.version s = V.version last - (V.version s + 1) + 1 by omega,
          List.range'_succ]
      rw [List.filter_cons_of_pos hchanges, List.map_cons, hread, hrange] at hperm
      refine ih hl' hsorted _ hnext (fun f hf => ?_) (hversion.symm ▸ hperm.cons_inv)
      rw [hversion]
      exact past_change hchanges hf (congrArg _ hread) (hfirst f hf) hperm.cons_inv

/-- **Replay**: the requests that committed, one after another in the order of the
versions they read, lead from the first state to the last. -/
theorem replay (h : Serial V states log first last) :
    (orderBy V.order log).foldl (fun s e => V.apply e s) first = last := by
  refine h.replay_from _ (fun e he => mem_orderBy.mp he) (orderBy_sorted V.order log) first h.first_mem
    (fun e he => (h.between _ (h.read e (mem_orderBy.mp he))).1) ?_
  exact ((orderBy_perm V.order log).filter _ |>.map _).trans h.once

end Serial
end Versioned
end Statement.Foundation
