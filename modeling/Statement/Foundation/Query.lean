import Mathlib

/-! `ORDER BY`, `LAG` and `DISTINCT ON` on lists of rows.

The sort is stable: rows with equal keys keep the order they come in. The window
function is given for keys that are unique in a partition, where the row before
another is the one with the greatest smaller key. -/
namespace Statement.Foundation

variable {α κ : Type} [LinearOrder κ]

def orderBy (key : α → κ) (l : List α) : List α := l.insertionSort fun a b => key a ≤ key b

instance orderBy_total (key : α → κ) : Std.Total fun a b : α => key a ≤ key b := ⟨fun _ _ => le_total _ _⟩

instance orderBy_isTrans (key : α → κ) : IsTrans α fun a b => key a ≤ key b := ⟨fun _ _ _ => le_trans⟩

theorem orderBy_perm (key : α → κ) (l : List α) : (orderBy key l).Perm l := List.perm_insertionSort _ l

@[simp] theorem mem_orderBy {key : α → κ} {l : List α} {a : α} : a ∈ orderBy key l ↔ a ∈ l :=
  (orderBy_perm key l).mem_iff

@[simp] theorem length_orderBy (key : α → κ) (l : List α) : (orderBy key l).length = l.length :=
  (orderBy_perm key l).length_eq

theorem orderBy_sorted (key : α → κ) (l : List α) :
    (orderBy key l).Pairwise fun a b => key a ≤ key b := List.pairwise_insertionSort _ l

/-- Rows that come in order stay as they are. -/
theorem orderBy_of_sorted {key : α → κ} {l : List α} (h : l.Pairwise fun a b => key a ≤ key b) :
    orderBy key l = l := h.insertionSort_eq

/-- The first row in order has the least key. -/
theorem head_orderBy_le {key : α → κ} {l : List α} {a : α} (h : (orderBy key l).head? = some a) :
    a ∈ l ∧ ∀ b ∈ l, key a ≤ key b := by
  obtain ⟨rest, hr⟩ := List.head?_eq_some_iff.mp h
  have hs := orderBy_sorted key l
  rw [hr] at hs
  have ha : a ∈ orderBy key l := hr ▸ List.mem_cons_self
  refine ⟨mem_orderBy.mp ha, fun b hb => ?_⟩
  have hb' : b ∈ orderBy key l := mem_orderBy.mpr hb
  rw [hr] at hb'
  rcases List.mem_cons.mp hb' with rfl | hb'
  · exact le_rfl
  · exact (List.pairwise_cons.mp hs).1 b hb'

theorem head_orderBy_none {key : α → κ} {l : List α} : (orderBy key l).head? = none ↔ l = [] := by
  rw [List.head?_eq_none_iff, ← List.length_eq_zero_iff, length_orderBy, List.length_eq_zero_iff]

/-- Rows with distinct keys come out strictly in order. -/
theorem orderBy_strict {key : α → κ} {l : List α} (h : l.Pairwise fun a b => key a ≠ key b) :
    (orderBy key l).Pairwise fun a b => key a < key b := by
  have hne : (orderBy key l).Pairwise fun a b => key a ≠ key b :=
    (orderBy_perm key l).symm.pairwise h fun hab => Ne.symm hab
  exact (orderBy_sorted key l).imp₂ (fun _ _ hle hne => lt_of_le_of_ne hle hne) hne

/-- Rows with distinct keys come out in one order, however they are stored. -/
theorem orderBy_congr {key : α → κ} {l l' : List α} (h : l.Pairwise fun a b => key a ≠ key b)
    (h' : l'.Pairwise fun a b => key a ≠ key b) (hmem : ∀ a, a ∈ l ↔ a ∈ l') :
    orderBy key l = orderBy key l' := by
  have hnodup : ∀ {s : List α}, s.Pairwise (fun a b => key a ≠ key b) → s.Nodup :=
    fun hs => hs.imp fun hne he => hne (congrArg key he)
  have hperm : l.Perm l' := (List.perm_ext_iff_of_nodup (hnodup h) (hnodup h')).mpr hmem
  have hsorted : (orderBy key l).Perm (orderBy key l') :=
    (orderBy_perm key l).trans (hperm.trans (orderBy_perm key l').symm)
  exact hsorted.eq_of_pairwise (fun a b _ _ hab hba => absurd hab (lt_asymm hba)) (orderBy_strict h)
    (orderBy_strict h')

/-- The first row in order is the last one stored, when that has the least key. -/
theorem head_orderBy_append {key : α → κ} {l : List α} {last : α} (h : ∀ a ∈ l, key last < key a) :
    (orderBy key (l ++ [last])).head? = some last := by
  cases hf : (orderBy key (l ++ [last])).head? with
  | none => exact absurd (head_orderBy_none.mp hf) (by simp)
  | some a =>
    obtain ⟨ha, hle⟩ := head_orderBy_le hf
    rcases List.mem_append.mp ha with ha | ha
    · exact absurd (hle last (by simp)) (not_le.mpr (h a ha))
    · rw [List.mem_singleton.mp ha]

/-- `LIMIT`: a row that is left out is not before any that is taken, and as many were
taken as may be. -/
theorem orderBy_take {key : α → κ} {l : List α} {n : Nat} {a : α} (ha : a ∈ l)
    (hnot : a ∉ (orderBy key l).take n) :
    ((orderBy key l).take n).length = n ∧ ∀ b ∈ (orderBy key l).take n, key b ≤ key a := by
  have hsorted := orderBy_sorted key l
  have hmem : a ∈ orderBy key l := mem_orderBy.mpr ha
  rw [← List.take_append_drop n (orderBy key l)] at hsorted hmem
  have hdrop := (List.mem_append.mp hmem).resolve_left hnot
  refine ⟨?_, fun b hb => (List.pairwise_append.mp hsorted).2.2 b hb a hdrop⟩
  have := List.length_pos_of_mem hdrop
  rw [List.length_drop] at this
  rw [List.length_take]
  omega

/-- Leaving rows out before sorting leaves them out after it. -/
theorem orderBy_filter (key : α → κ) (p : α → Bool) (l : List α) :
    (orderBy key l).filter p = orderBy key (l.filter p) := by
  have hinsert : ∀ (a : α) (s : List α), s.Pairwise (fun a b => key a ≤ key b) →
      (s.orderedInsert (fun a b => key a ≤ key b) a).filter p =
        if p a then (s.filter p).orderedInsert (fun a b => key a ≤ key b) a else s.filter p := by
    intro a s hs
    induction s with
    | nil => by_cases hp : p a <;> simp [hp]
    | cons b s ih =>
      obtain ⟨hb, hs'⟩ := List.pairwise_cons.mp hs
      by_cases hab : key a ≤ key b
      · -- `a` goes before all of `b :: s`, and so before what is left of it
        have hfront : ∀ t : List α, (∀ c ∈ t, key a ≤ key c) →
            t.orderedInsert (fun a b => key a ≤ key b) a = a :: t := by
          intro t ht
          cases t with
          | nil => rfl
          | cons c t => simp [ht c List.mem_cons_self]
        rw [hfront (b :: s) fun c hc => ?_, hfront ((b :: s).filter p) fun c hc => ?_, List.filter_cons]
        · rcases List.mem_cons.mp (List.mem_of_mem_filter hc) with rfl | hc
          · exact hab
          · exact hab.trans (hb c hc)
        · rcases List.mem_cons.mp hc with rfl | hc
          · exact hab
          · exact hab.trans (hb c hc)
      · rw [List.orderedInsert_cons, if_neg hab, List.filter_cons, ih hs']
        by_cases hpa : p a <;> by_cases hpb : p b <;> simp [hpa, hpb, hab]
  induction l with
  | nil => rfl
  | cons a l ih =>
    have hcons : orderBy key (a :: l) =
        (orderBy key l).orderedInsert (fun a b => key a ≤ key b) a := rfl
    rw [hcons, hinsert a _ (orderBy_sorted key l), ih, List.filter_cons]
    split <;> rfl

variable {π : Type} [DecidableEq π]

/-- `LAG(…) OVER (PARTITION BY part ORDER BY key)`: the row before `a`. -/
def lag (part : α → π) (key : α → κ) (l : List α) (a : α) : Option α :=
  (orderBy key (l.filter fun b => part b = part a ∧ key b < key a)).getLast?

/-- Of rows in order, those before one of them. -/
theorem filter_lt_eq {key : α → κ} {pre post : List α} {a : α}
    (hs : (pre ++ a :: post).Pairwise fun b c => key b < key c) :
    (pre ++ a :: post).filter (key · < key a) = pre := by
  obtain ⟨_, hrest, hpre⟩ := List.pairwise_append.mp hs
  rw [List.filter_append, List.filter_cons, if_neg (by simp), List.filter_eq_self.mpr,
    List.filter_eq_nil_iff.mpr, List.append_nil]
  · intro b hb
    simpa using le_of_lt ((List.pairwise_cons.mp hrest).1 b hb)
  · intro b hb
    simpa using hpre b hb a List.mem_cons_self

/-- In a partition that comes in order, the row before another is the one listed
before it. -/
theorem lag_eq {part : α → π} {key : α → κ} {l pre post : List α} {a : α}
    (hl : l.filter (fun b => part b = part a) = pre ++ a :: post)
    (hs : (pre ++ a :: post).Pairwise fun b c => key b < key c) :
    lag part key l a = pre.getLast? := by
  have hand : l.filter (fun b => part b = part a ∧ key b < key a) =
      (l.filter fun b => part b = part a).filter fun b => key b < key a := by
    rw [List.filter_filter]
    exact List.filter_congr fun b _ => by rw [Bool.decide_and, Bool.and_comm]
  rw [lag, hand, hl, filter_lt_eq hs, orderBy_of_sorted]
  exact (List.pairwise_append.mp hs).1.imp le_of_lt

/-- A lateral join on distinct keys: the rows of one key. -/
theorem filter_flatMap_eq {τ : Type} {ts : List τ} {key : τ → π} {g : τ → List α} {part : α → π}
    (hn : (ts.map key).Nodup) (hg : ∀ t ∈ ts, ∀ a ∈ g t, part a = key t) {t : τ} (ht : t ∈ ts) :
    (ts.flatMap g).filter (part · = key t) = g t := by
  induction ts with
  | nil => cases ht
  | cons u us ih =>
    obtain ⟨hu, hn⟩ := List.nodup_cons.mp hn
    have hg' : ∀ t ∈ us, ∀ a ∈ g t, part a = key t := fun t ht => hg t (List.mem_cons_of_mem u ht)
    rw [List.flatMap_cons, List.filter_append]
    rcases List.mem_cons.mp ht with rfl | ht
    · have hnone : (us.flatMap g).filter (part · = key t) = [] := by
        refine List.filter_eq_nil_iff.mpr fun a ha => ?_
        obtain ⟨v, hv, ha⟩ := List.mem_flatMap.mp ha
        have hne : key v ≠ key t := fun he => hu (he ▸ List.mem_map_of_mem hv)
        simpa [hg' v hv a ha] using hne
      rw [hnone, List.append_nil, List.filter_eq_self]
      intro a ha
      simpa using hg t List.mem_cons_self a ha
    · have hnone : (g u).filter (part · = key t) = [] := by
        refine List.filter_eq_nil_iff.mpr fun a ha => ?_
        have hne : key u ≠ key t := fun he => hu (he ▸ List.mem_map_of_mem ht)
        simpa [hg u List.mem_cons_self a ha] using hne
      rw [hnone, List.nil_append, ih hn hg' ht]

/-- `DISTINCT ON (part)`: the first row of each partition. -/
def distinctOn (part : α → π) : List α → List α
  | [] => []
  | a :: l => a :: (distinctOn part l).filter fun b => part b ≠ part a

theorem distinctOn_filter (part : α → π) (q : π) (l : List α) :
    (distinctOn part l).filter (part · = q) = (l.filter (part · = q)).head?.toList := by
  induction l with
  | nil => rfl
  | cons a l ih =>
    rw [distinctOn, List.filter_cons, List.filter_cons, List.filter_filter]
    by_cases ha : part a = q
    · simp [ha]
    · rw [if_neg (by simpa using ha), if_neg (by simpa using ha), ← ih]
      refine List.filter_congr fun b _ => ?_
      by_cases hb : part b = q
      · simp [hb, Ne.symm ha]
      · simp [hb]

/-- The first row of a partition in order of a key. -/
theorem distinctOn_orderBy_filter (part : α → π) (key : α → κ) (q : π) (l : List α) :
    (distinctOn part (orderBy key l)).filter (part · = q) =
      (orderBy key (l.filter (part · = q))).head?.toList := by
  rw [distinctOn_filter, orderBy_filter]

end Statement.Foundation
