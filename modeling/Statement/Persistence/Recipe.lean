import Mathlib.Logic.Function.Basic
import Mathlib.Data.List.Basic
import Statement.Account.VersionedHistory

/-! The history recipe, for any mapped class.

`create_version` goes through the columns of the history table and picks what each
attribute was before it was assigned to. The columns, the types of their values and the
relationships are parameters; that every attribute has a column in the history table,
as `_history_mapper` makes it, is a field. -/
namespace Statement.Persistence
open Account (AttributeHistory)

/-- An attribute in an instance's `dict` (`current`) and in its `committed_state`
(`original`, where `some none` is `NO_VALUE`). -/
structure AttributeState (α : Type) where
  current : Option α
  original : Option (Option α)

namespace AttributeState
variable {α : Type}

def expired : AttributeState α := ⟨none, none⟩

/-- `getattr` loads what is not in the `dict`. -/
def load (s : AttributeState α) (x : α) : AttributeState α :=
  match s.current with
  | some _ => s
  | none => { s with current := some x }

/-- An assignment. What was there before the first one is kept. -/
def assign (s : AttributeState α) (x : α) : AttributeState α := ⟨some x, some (s.original.getD s.current)⟩

/-- `attributes.get_history`. -/
def getHistory [DecidableEq α] (s : AttributeState α) : AttributeHistory α :=
  match s.original with
  | none => ⟨[], s.current.toList, []⟩
  | some original =>
    if s.current ≠ none ∧ s.current = original then ⟨[], s.current.toList, []⟩
    else ⟨s.current.toList, [], original.toList⟩

/-- The attribute is loaded, and was `x` before it was assigned to. -/
structure Loaded (s : AttributeState α) (x : α) : Prop where
  current : s.current ≠ none
  original : s.original.getD s.current = some x

theorem Loaded.load {s : AttributeState α} (h : s = expired) (x : α) : (s.load x).Loaded x := by
  subst h
  exact ⟨by simp [AttributeState.load, expired], rfl⟩

theorem load_of_loaded {s : AttributeState α} {x : α} (h : s.Loaded x) (y : α) : s.load y = s := by
  obtain ⟨c, hc⟩ := Option.ne_none_iff_exists'.mp h.current
  rw [AttributeState.load, hc]

theorem Loaded.assign {s : AttributeState α} {x : α} (h : s.Loaded x) (y : α) : (s.assign y).Loaded x :=
  ⟨Option.some_ne_none y, h.original⟩

/-- What is loaded is as it was, or it was something else. -/
theorem Loaded.getHistory [DecidableEq α] {s : AttributeState α} {x : α} (h : s.Loaded x) :
    s.current = some x ∧ s.getHistory = ⟨[], [x], []⟩ ∨
      ∃ y, y ≠ x ∧ s.current = some y ∧ s.getHistory = ⟨[y], [], [x]⟩ := by
  obtain ⟨current, original⟩ := s
  obtain ⟨hcurrent, horiginal⟩ := h
  cases current with
  | none => exact absurd rfl hcurrent
  | some y =>
    cases original with
    | none =>
      cases horiginal
      exact .inl ⟨rfl, rfl⟩
    | some original =>
      cases horiginal
      by_cases hyx : y = x
      · subst hyx
        exact .inl ⟨rfl, by simp [AttributeState.getHistory]⟩
      · exact .inr ⟨y, hyx, rfl, by simp [AttributeState.getHistory, hyx]⟩

end AttributeState

variable {K R : Type} {V : K → Type}

/-- A row of the versioned table. -/
structure Row (V : K → Type) where
  values : (k : K) → V k
  version : Nat

/-- A row of the history table; `none` is `NULL`. -/
structure HistoryRow (V : K → Type) where
  version : Nat
  columns : (k : K) → Option (V k)

/-- A persistent instance in a session. -/
structure Instance (V : K → Type) (R : Type) where
  attributes : (k : K) → AttributeState (V k)
  version : AttributeState Nat
  /-- `has_changes` of the relationships. -/
  relationships : R → Bool
  /-- The foreign keys that the changed relationships will be flushed as. -/
  sync : (k : K) → Option (V k)

/-- A column of the history table: a copy, with the property that its original is
mapped by, or one of the recipe's own. -/
inductive HistoryColumn (K : Type) where
  | copy (property : Option K)
  | versioning

/-- What `create_version` takes from a column. An unmapped one is left out. -/
def HistoryColumn.property : HistoryColumn K → Option K
  | copy property => property
  | versioning => none

structure HistoryMapper (K : Type) where
  single : Bool
  columns : List (HistoryColumn K)

def HistoryMapper.properties (hm : HistoryMapper K) : List K :=
  if hm.single then [] else hm.columns.filterMap (·.property)

/-- The mapper of a class beside its history's, from each to its root. -/
structure Mapping (K R : Type) where
  historyMappers : List (HistoryMapper K)
  relationships : List R
  /-- Of each local column of a relationship, whether it has foreign keys. -/
  localColumns : R → List Bool
  primaryKey : K → Bool
  covers : ∀ k, k ∈ historyMappers.flatMap (·.properties)

namespace Mapping

def properties (m : Mapping K R) : List K := m.historyMappers.flatMap (·.properties)

/-- A relationship that is flushed as a column of its own table. -/
def hasForeignKeys (m : Mapping K R) (r : R) : Bool := (m.localColumns r).any id

end Mapping

/-- `_history_mapper` on a class that inherits from no mapped class: a copy of every
column, and the columns `version` and `changed`. -/
def historyMapper (columns : List K) : HistoryMapper K :=
  ⟨false, columns.map (fun k => .copy (some k)) ++ [.versioning, .versioning]⟩

section
variable [DecidableEq K] [∀ k, DecidableEq (V k)]

/-- An attribute that is not there is loaded from the row, as long as there is one. -/
def Instance.fetch (row : Option (Row V)) (i : Instance V R) (k : K) : Option (Instance V R) :=
  match (i.attributes k).current with
  | some _ => some i
  | none => row.map fun r =>
      { i with attributes := Function.update i.attributes k ((i.attributes k).load (r.values k)) }

/-- The loop of `create_version`: `attr` and `obj_changed`. -/
structure Draft (V : K → Type) (R : Type) where
  object : Instance V R
  attr : (k : K) → Option (V k)
  objChanged : Bool

def Draft.visit (row : Option (Row V)) (s : Draft V R) (k : K) : Option (Draft V R) :=
  (s.object.fetch row k).map fun object =>
    match (object.attributes k).getHistory with
    | ⟨_, _, d :: _⟩ => ⟨object, Function.update s.attr k (some d), true⟩
    | ⟨_, u :: _, []⟩ => ⟨object, Function.update s.attr k (some u), s.objChanged⟩
    | ⟨a :: _, [], []⟩ => ⟨object, Function.update s.attr k (some a), true⟩
    | ⟨[], [], []⟩ => { s with object }

/-- `create_version`: the history row, if there is one, and the object as it is left;
`none` is the exception of a load that finds no row. -/
def createVersion (m : Mapping K R) (row : Option (Row V)) (object : Instance V R) (deleted : Bool) :
    Option (Option (HistoryRow V) × Instance V R) := do
  let draft ← m.properties.foldlM (Draft.visit row) ⟨object, fun _ => none, false⟩
  let objChanged := draft.objChanged ||
    m.relationships.any fun r => draft.object.relationships r && m.hasForeignKeys r
  if objChanged || deleted then
    let version ← draft.object.version.current
    some (some ⟨version, draft.attr⟩,
      { draft.object with version := draft.object.version.assign (version + 1) })
  else some (none, draft.object)

/-! ### What it archives -/

/-- The attribute was `x`, or is yet to be loaded as `x`. -/
def Reading (row : Option (Row V)) (k : K) (s : AttributeState (V k)) (x : V k) : Prop :=
  s.Loaded x ∨ s = .expired ∧ ∀ r, row = some r → r.values k = x

/-- The attribute is loaded, and assigned another value. -/
def AttributeState.Assigned {α : Type} (s : AttributeState α) (x : α) : Prop := s.current ≠ some x

/-- The loop, as far as it has got. -/
structure Visited (read : (k : K) → V k) (start : Instance V R) (seen : List K) (s : Draft V R) : Prop where
  version : s.object.version = start.version
  relationships : s.object.relationships = start.relationships
  sync : s.object.sync = start.sync
  loaded : ∀ k ∈ seen, (s.object.attributes k).Loaded (read k) ∧ s.attr k = some (read k)
  unseen : ∀ k, k ∉ seen → s.object.attributes k = start.attributes k
  changed : s.objChanged = true ↔ ∃ k ∈ seen, (s.object.attributes k).Assigned (read k)

variable {m : Mapping K R} {row : Option (Row V)} {read : (k : K) → V k} {start i' : Instance V R}

omit [∀ k, DecidableEq (V k)] in
theorem fetch_some {i : Instance V R} {k : K} (h : i.fetch row k = some i')
    (hread : Reading row k (i.attributes k) (read k)) :
    (i'.attributes k).Loaded (read k) ∧ (∀ k', k' ≠ k → i'.attributes k' = i.attributes k') ∧
      i'.version = i.version ∧ i'.relationships = i.relationships ∧ i'.sync = i.sync ∧
      ((i.attributes k).Loaded (read k) → i'.attributes k = i.attributes k) := by
  unfold Instance.fetch at h
  split at h
  · rename_i c hc
    cases h
    refine ⟨?_, fun _ _ => rfl, rfl, rfl, rfl, fun _ => rfl⟩
    rcases hread with hloaded | ⟨hexpired, _⟩
    · exact hloaded
    · rw [hexpired] at hc
      cases hc
  · rename_i hnone
    obtain ⟨r, hr, rfl⟩ := Option.map_eq_some_iff.mp h
    rcases hread with hloaded | ⟨hexpired, hvalue⟩
    · exact absurd hnone hloaded.current
    · refine ⟨?_, fun k' hk' => Function.update_of_ne hk' _ _, rfl, rfl, rfl, fun hloaded => ?_⟩
      · show (Function.update i.attributes k _ k).Loaded (read k)
        rw [Function.update_self, ← hvalue r hr]
        exact .load hexpired _
      · exact absurd hnone hloaded.current

omit [DecidableEq K] [∀ k, DecidableEq (V k)] in
/-- Before the first turn. -/
theorem Visited.initial (read : (k : K) → V k) (start : Instance V R) :
    Visited read start [] (⟨start, fun _ => none, false⟩ : Draft V R) :=
  ⟨rfl, rfl, rfl, fun _ hk => (by cases hk), fun _ _ => rfl, by simp⟩

/-- What one turn of the loop does. -/
theorem Visited.visit {seen : List K} {s s' : Draft V R} {k : K} (h : Visited read start seen s)
    (hread : ∀ k, Reading row k (start.attributes k) (read k)) (hs' : s.visit row k = some s') :
    Visited read start (seen ++ [k]) s' := by
  obtain ⟨object, hobject, hdraft⟩ := Option.map_eq_some_iff.mp hs'
  have hreadk : Reading row k (s.object.attributes k) (read k) := by
    by_cases hk : k ∈ seen
    · exact .inl (h.loaded k hk).1
    · rw [h.unseen k hk]
      exact hread k
  obtain ⟨hloaded, hothers, hversion, hrelationships, hsync, hsame⟩ := fetch_some hobject hreadk
  have hseen : ∀ {k'}, k' ∈ seen → object.attributes k' = s.object.attributes k' := by
    intro k' hk'
    by_cases hkk : k' = k
    · subst hkk
      exact hsame (h.loaded k' hk').1
    · exact hothers k' hkk
  have hchanged : (∃ k' ∈ seen ++ [k], (object.attributes k').Assigned (read k')) ↔
      s.objChanged = true ∨ (object.attributes k).Assigned (read k) := by
    rw [h.changed]
    constructor
    · rintro ⟨k', hk', hassigned⟩
      rcases List.mem_append.mp hk' with hk' | hk'
      · exact .inl ⟨k', hk', hseen hk' ▸ hassigned⟩
      · obtain rfl := List.mem_singleton.mp hk'
        exact .inr hassigned
    · rintro (⟨k', hk', hassigned⟩ | hassigned)
      · exact ⟨k', List.mem_append_left _ hk', by rwa [hseen hk']⟩
      · exact ⟨k, by simp, hassigned⟩
  -- whichever branch is taken, the archived value is the one that was read
  have hdrafted : s'.object = object ∧ s'.attr = Function.update s.attr k (some (read k)) ∧
      (s'.objChanged = true ↔ s.objChanged = true ∨ (object.attributes k).Assigned (read k)) := by
    rcases hloaded.getHistory with ⟨hcurrent, hhistory⟩ | ⟨y, hyx, hcurrent, hhistory⟩
    · rw [hhistory] at hdraft
      subst hdraft
      simp [AttributeState.Assigned, hcurrent]
    · rw [hhistory] at hdraft
      subst hdraft
      simp [AttributeState.Assigned, hcurrent, hyx]
  obtain ⟨hobject', hattr, hobjChanged⟩ := hdrafted
  refine ⟨by rw [hobject', hversion, h.version], by rw [hobject', hrelationships, h.relationships],
    by rw [hobject', hsync, h.sync], fun k' hk' => ?_, fun k' hk' => ?_, ?_⟩
  · rw [hobject', hattr]
    by_cases hkk : k' = k
    · subst hkk
      exact ⟨hloaded, Function.update_self _ _ _⟩
    · have hold : k' ∈ seen := by simpa [hkk] using hk'
      rw [hothers k' hkk, Function.update_of_ne hkk]
      exact h.loaded k' hold
  · have hnot : k' ∉ seen ∧ k' ≠ k := by simpa using hk'
    rw [hobject', hothers k' hnot.2, h.unseen k' hnot.1]
  · rw [hobjChanged, hobject', hchanged]

theorem Visited.run {keys seen : List K} {s s' : Draft V R} (h : Visited read start seen s)
    (hread : ∀ k, Reading row k (start.attributes k) (read k))
    (hs' : keys.foldlM (Draft.visit row) s = some s') : Visited read start (seen ++ keys) s' := by
  induction keys generalizing seen s with
  | nil =>
    cases hs'
    rwa [List.append_nil]
  | cons k keys ih =>
    rw [List.foldlM_cons] at hs'
    obtain ⟨s₁, hs₁, hrest⟩ := Option.bind_eq_some_iff.mp hs'
    have := ih (h.visit hread hs₁) hrest
    rwa [List.append_assoc] at this

/-- The object as the loop leaves it: every attribute is there. -/
structure Fetched (read : (k : K) → V k) (start i' : Instance V R) : Prop where
  relationships : i'.relationships = start.relationships
  sync : i'.sync = start.sync
  loaded : ∀ k, (i'.attributes k).Loaded (read k)

/-- Something is to be archived: a column or a foreign key is about to change. -/
def Changed (m : Mapping K R) (read : (k : K) → V k) (i : Instance V R) : Prop :=
  (∃ k, (i.attributes k).Assigned (read k)) ∨
    ∃ r ∈ m.relationships, i.relationships r = true ∧ m.hasForeignKeys r = true

omit [DecidableEq K] [∀ k, DecidableEq (V k)] in
/-- After the last turn. -/
theorem Visited.done {s : Draft V R} (h : Visited read start m.properties s) :
    s.attr = (fun k => some (read k)) ∧ (Changed m read s.object ↔
      (s.objChanged || m.relationships.any fun r => s.object.relationships r && m.hasForeignKeys r) = true) := by
  refine ⟨funext fun k => (h.loaded k (m.covers k)).2, ?_⟩
  rw [Bool.or_eq_true, h.changed, List.any_eq_true]
  simp only [Bool.and_eq_true]
  exact or_congr_left ⟨fun ⟨k, hk⟩ => ⟨k, m.covers k, hk⟩, fun ⟨k, _, hk⟩ => ⟨k, hk⟩⟩

/-- **What `create_version` does**: it archives what every attribute was, under the
version that the object has, and moves the version on; it leaves out just what has not
changed and is not deleted. -/
theorem createVersion_cases {deleted : Bool} {hist : Option (HistoryRow V)}
    (hread : ∀ k, Reading row k (start.attributes k) (read k))
    (h : createVersion m row start deleted = some (hist, i')) :
    Fetched read start i' ∧
      ((∃ version, start.version.current = some version ∧ hist = some ⟨version, fun k => some (read k)⟩ ∧
          i'.version = start.version.assign (version + 1)) ∨
        hist = none ∧ i'.version = start.version ∧ deleted = false ∧ ¬ Changed m read i') := by
  simp only [createVersion, Option.bind_eq_bind, Option.bind_eq_some_iff] at h
  obtain ⟨draft, hdraft, h⟩ := h
  have hvisited := (Visited.initial read start).run hread hdraft
  rw [List.nil_append] at hvisited
  have hfetched : Fetched read start draft.object :=
    ⟨hvisited.relationships, hvisited.sync, fun k => (hvisited.loaded k (m.covers k)).1⟩
  obtain ⟨hattr, hchanged⟩ := hvisited.done
  split at h
  · obtain ⟨version, hversion, h⟩ := Option.bind_eq_some_iff.mp h
    cases h
    rw [hvisited.version] at hversion
    refine ⟨⟨hfetched.relationships, hfetched.sync, hfetched.loaded⟩, .inl ⟨version, hversion, ?_, ?_⟩⟩
    · rw [hattr]
    · rw [hvisited.version]
  · rename_i hidle
    cases h
    refine ⟨hfetched, .inr ⟨rfl, hvisited.version, ?_, ?_⟩⟩
    · cases deleted with
      | false => rfl
      | true => simp at hidle
    · rw [hchanged]
      intro htrue
      rw [htrue] at hidle
      exact hidle rfl

/-- Where everything is loaded, the loop loads nothing and comes to an end. -/
theorem exists_draft (row : Option (Row V)) (hloaded : ∀ k, (start.attributes k).Loaded (read k)) (keys : List K)
    {s : Draft V R} (hs : s.object = start) : ∃ s', keys.foldlM (Draft.visit row) s = some s' ∧ s'.object = start := by
  induction keys generalizing s with
  | nil => exact ⟨s, rfl, hs⟩
  | cons k keys ih =>
    obtain ⟨c, hc⟩ := Option.ne_none_iff_exists'.mp (hloaded k).current
    have hfetch : s.object.fetch row k = some start := by
      rw [hs, Instance.fetch, hc]
    obtain ⟨s₁, hs₁, hobject⟩ : ∃ s₁, s.visit row k = some s₁ ∧ s₁.object = start := by
      rw [Draft.visit, hfetch]
      refine ⟨_, rfl, ?_⟩
      dsimp only
      rcases (hloaded k).getHistory with ⟨_, hhistory⟩ | ⟨_, _, _, hhistory⟩ <;> rw [hhistory]
    rw [List.foldlM_cons, hs₁]
    exact ih hobject

/-- On an object that is all there, `create_version` comes to this. -/
theorem createVersion_loaded {deleted : Bool} (hloaded : ∀ k, (start.attributes k).Loaded (read k)) {version : Nat}
    (hversion : start.version.current = some version) :
    (Changed m read start ∨ deleted = true → createVersion m row start deleted =
        some (some ⟨version, fun k => some (read k)⟩,
          { start with version := start.version.assign (version + 1) })) ∧
      (¬ (Changed m read start ∨ deleted = true) → createVersion m row start deleted = some (none, start)) := by
  obtain ⟨draft, hdraft, hobject⟩ := exists_draft row hloaded m.properties
    (show (⟨start, fun _ => none, false⟩ : Draft V R).object = start from rfl)
  have hvisited := (Visited.initial read start).run (fun k => .inl (hloaded k)) hdraft
  rw [List.nil_append] at hvisited
  obtain ⟨hattr, hchanged⟩ := hvisited.done
  rw [hobject] at hchanged
  refine ⟨fun hkeeps => ?_, fun hidle => ?_⟩
  · have hcondition : (draft.objChanged || (m.relationships.any fun r =>
        start.relationships r && m.hasForeignKeys r) || deleted) = true := by
      rw [Bool.or_eq_true, ← hchanged]
      exact hkeeps
    simp only [createVersion, hdraft, Option.bind_eq_bind, Option.bind_some, hobject, hcondition, if_true, hversion,
      hattr]
  · have hcondition : (draft.objChanged || (m.relationships.any fun r =>
        start.relationships r && m.hasForeignKeys r) || deleted) = false := by
      rw [← Bool.not_eq_true, Bool.or_eq_true, ← hchanged]
      exact hidle
    simp only [createVersion, hdraft, Option.bind_eq_bind, Option.bind_some, hobject, hcondition, Bool.false_eq_true,
      if_false]

end
end Statement.Persistence
