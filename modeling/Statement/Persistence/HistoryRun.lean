import Statement.Persistence.AccountHistory

/-! A versioned row and the sessions that change it.

Every session has an instance of the row of its own, loaded when it likes, and flushes
it when it likes: `before_flush` stages the history row, and the statements insert it
and write the row. A transaction that has written keeps the others from writing until
it ends. Whatever they do, the history table holds every state that the row has been in
but the current one, each under its version. -/
namespace Statement.Persistence
open Account (AttributeHistory)
open Domain

variable {K R T : Type} {V : K → Type}

/-- The rows with one primary key, in the table and in its history. -/
structure Stored (V : K → Type) where
  row : Option (Row V)
  history : List (HistoryRow V)

/-- What a session has of the row. -/
structure Work (V : K → Type) (R : Type) where
  object : Instance V R
  deleted : Bool
  /-- What `before_flush` has added to the session, once it has run. -/
  staged : Option (Option (HistoryRow V))

structure World (T : Type) (V : K → Type) (R : Type) where
  committed : Stored V
  /-- The transaction that has written, and what it has made of the rows. -/
  begun : Option (T × Stored V)
  works : T → Option (Work V R)

inductive Act (V : K → Type) (R : Type) where
  /-- The row is found, or what is missing of it is loaded. -/
  | load
  | set (k : K) (x : V k)
  | relate (r : R) (sync : (k : K) → Option (V k))
  | delete
  | expire
  | beforeFlush
  /-- The statements of a flush, with what the database computes for the columns that
  have an `onupdate`. -/
  | flush (onUpdate : (k : K) → Option (V k))
  | commit
  | rollback

section
variable [DecidableEq K] [∀ k, DecidableEq (V k)]

namespace AttributeState
variable {α : Type} [DecidableEq α]

/-- The value that an `UPDATE` sets. -/
def update (s : AttributeState α) : Option α := s.getHistory.added.head?

end AttributeState

namespace Instance

def new : Instance V R := ⟨fun _ => .expired, .expired, fun _ => false, fun _ => none⟩

def loadAll (r : Row V) (i : Instance V R) : Instance V R :=
  { i with attributes := fun k => (i.attributes k).load (r.values k), version := i.version.load r.version }

def assign (i : Instance V R) (k : K) (x : V k) : Instance V R :=
  { i with attributes := Function.update i.attributes k ((i.attributes k).assign x) }

/-- The foreign keys of the changed relationships, as a flush sets them. -/
def synced (i : Instance V R) : Instance V R :=
  { i with attributes := fun k => match i.sync k with
      | some x => (i.attributes k).assign x
      | none => i.attributes k }

/-- Is there anything to be updated? -/
def updates (m : Mapping K R) (i : Instance V R) : Bool :=
  i.version.update.isSome || m.properties.any fun k => (i.attributes k).update.isSome

/-- The row after the `UPDATE`. -/
def written (onUpdate : (k : K) → Option (V k)) (i : Instance V R) (row : Row V) : Row V where
  values k := ((i.attributes k).update.or (onUpdate k)).getD (row.values k)
  version := i.version.update.getD row.version

/-- With `use_mapper_versioning` the statement names the version that was loaded. -/
def names (versioned : Bool) (i : Instance V R) (row : Row V) : Bool :=
  !versioned || i.version.original.getD i.version.current = some row.version

/-- The instance after the flush; what the database has computed is expired. -/
def flushed (m : Mapping K R) (onUpdate : (k : K) → Option (V k)) (i : Instance V R) : Instance V R where
  attributes k :=
    ⟨if i.updates m && (i.attributes k).update.isNone && (onUpdate k).isSome then none
      else (i.attributes k).current, none⟩
  version := ⟨i.version.current, none⟩
  relationships _ := false
  sync _ := none

end Instance

/-- Does a flush write anything? -/
def Work.writes (m : Mapping K R) (work : Work V R) (hist : Option (HistoryRow V)) : Bool :=
  hist.isSome || work.deleted || work.object.synced.updates m

namespace Stored

/-- The primary key of the history table. -/
def insertHistory (s : Stored V) : Option (HistoryRow V) → Option (List (HistoryRow V))
  | none => some s.history
  | some h => if ∃ x ∈ s.history, x.version = h.version then none else some (s.history ++ [h])

/-- The statements of a flush; `none` is an `IntegrityError` or a `StaleDataError`. -/
def flush (m : Mapping K R) (versioned : Bool) (onUpdate : (k : K) → Option (V k)) (s : Stored V)
    (work : Work V R) (hist : Option (HistoryRow V)) : Option (Stored V) := do
  let history ← s.insertHistory hist
  let object := work.object.synced
  if work.deleted then
    match s.row with
    | some row => if object.names versioned row then some ⟨none, history⟩ else none
    | none => if versioned then none else some ⟨none, history⟩
  else if object.updates m then
    let row ← s.row
    if object.names versioned row then some ⟨some (object.written onUpdate row), history⟩ else none
  else some ⟨s.row, history⟩

end Stored

namespace Mapping

/-- A relationship that changes foreign keys has them among its local columns, and they
are not the primary key. -/
def relates (m : Mapping K R) [DecidableEq R] (r : R) (sync : (k : K) → Option (V k)) : Bool :=
  r ∈ m.relationships &&
    m.properties.all fun k => (sync k).isNone || (m.hasForeignKeys r && !m.primaryKey k)

end Mapping

namespace World
variable [DecidableEq T] [DecidableEq R] (m : Mapping K R) (versioned : Bool)

/-- Has the session's transaction written? -/
def begunBy (w : World T V R) (t : T) : Bool := w.begun.any (·.1 = t)

/-- What a session's statements find. -/
def view (w : World T V R) (t : T) : Stored V :=
  match w.begun with
  | some (u, s) => if u = t then s else w.committed
  | none => w.committed

def put (w : World T V R) (t : T) (work : Option (Work V R)) : World T V R :=
  { w with works := Function.update w.works t work }

/-- The session is rolled back, and with it what it has loaded. -/
def fail (w : World T V R) (t : T) : World T V R :=
  { w with begun := if w.begunBy t then none else w.begun, works := Function.update w.works t none }

/-- A statement of a flush waits for the transaction that has written. -/
def blocked (w : World T V R) (t : T) : Bool := w.begun.any (·.1 ≠ t)

def idle (w : World T V R) (t : T) : Bool := (w.works t).all (·.staged.isNone)

def flushed (w : World T V R) (t : T) (work : Work V R) (hist : Option (HistoryRow V)) (s : Stored V)
    (onUpdate : (k : K) → Option (V k)) : World T V R :=
  { w with
    begun := if work.writes m hist then some (t, s) else w.begun
    works := Function.update w.works t
      (if work.deleted then none else some ⟨work.object.synced.flushed m onUpdate, false, none⟩) }

def next (w : World T V R) (t : T) : Act V R → Option (World T V R)
  | .load => do
    let row ← (w.view t).row
    let work := (w.works t).getD ⟨.new, false, none⟩
    if w.idle t then some (w.put t (some { work with object := work.object.loadAll row })) else none
  | .set k x => do
    let work ← w.works t
    let object ← work.object.fetch (w.view t).row k
    if w.idle t && !m.primaryKey k then some (w.put t (some { work with object := object.assign k x }))
    else none
  | .relate r sync => do
    let work ← w.works t
    if w.idle t && m.relates r sync then
      some (w.put t (some { work with object :=
        { work.object with
          relationships := Function.update work.object.relationships r true
          sync := fun k => (sync k).or (work.object.sync k) } }))
    else none
  | .delete => do
    let work ← w.works t
    if w.idle t then some (w.put t (some { work with deleted := true })) else none
  | .expire => if w.idle t then some (w.put t none) else none
  | .beforeFlush => do
    let work ← w.works t
    if w.idle t then
      match createVersion m (w.view t).row work.object work.deleted with
      | none => some (w.fail t)
      | some (hist, object) => some (w.put t (some { work with object, staged := some hist }))
    else none
  | .flush onUpdate => do
    let work ← w.works t
    let hist ← work.staged
    if work.writes m hist && w.blocked t then none
    else match (w.view t).flush m versioned onUpdate work hist with
      | none => some (w.fail t)
      | some s => some (w.flushed m t work hist s onUpdate)
  | .commit => do
    let (u, s) ← w.begun
    if u = t && w.idle t then some { w with committed := s, begun := none } else none
  | .rollback => some (w.fail t)

def run (w : World T V R) : List (T × Act V R) → Option (World T V R)
  | [] => some w
  | (t, a) :: rest => (w.next m versioned t a).bind fun w' => run w' rest

end World

/-- The row has been inserted, with the version that its column defaults to. -/
def World.start (x : (k : K) → V k) : World T V R := ⟨⟨some ⟨x, 1⟩, []⟩, none, fun _ => none⟩

end

/-! ### The states of the row -/

/-- What the history holds of the states that the row has been in. -/
def archived (states : List ((k : K) → V k)) : List (HistoryRow V) :=
  states.mapIdx fun n x => ⟨n + 1, fun k => some (x k)⟩

/-- The row has been in these states, in this order. -/
inductive Recorded : Stored V → List ((k : K) → V k) → Prop
  | live (past : List ((k : K) → V k)) (x : (k : K) → V k) :
    Recorded ⟨some ⟨x, past.length + 1⟩, archived past⟩ (past ++ [x])
  | gone (states : List ((k : K) → V k)) (h : states ≠ []) : Recorded ⟨none, archived states⟩ states

theorem archived_concat (past : List ((k : K) → V k)) (x : (k : K) → V k) :
    archived (past ++ [x]) = archived past ++ [⟨past.length + 1, fun k => some (x k)⟩] := by
  rw [archived, List.mapIdx_concat, archived]

theorem mem_archived {states : List ((k : K) → V k)} {h : HistoryRow V} :
    h ∈ archived states ↔ ∃ n x, states[n]? = some x ∧ h = ⟨n + 1, fun k => some (x k)⟩ := by
  rw [archived, List.mem_mapIdx]
  constructor
  · rintro ⟨n, hn, rfl⟩
    exact ⟨n, states[n], List.getElem?_eq_getElem hn, rfl⟩
  · rintro ⟨n, x, hx, rfl⟩
    obtain ⟨hn, rfl⟩ := List.getElem?_eq_some_iff.mp hx
    exact ⟨n, hn, rfl⟩

/-- The states from version `n` on. -/
def Seen (states : List ((k : K) → V k)) (n : Nat) (x : (k : K) → V k) : Prop := x ∈ states.drop (n - 1)

theorem Seen.mono {states seen : List ((k : K) → V k)} {n : Nat} {x : (k : K) → V k} (h : Seen states n x)
    (hgrows : states <+: seen) : Seen seen n x := by
  obtain ⟨more, rfl⟩ := hgrows
  rw [Seen, List.drop_append]
  exact List.mem_append_left _ h

theorem exists_seen {states : List ((k : K) → V k)} {n : Nat} (hn : 1 ≤ n) (hle : n ≤ states.length) :
    ∃ x, Seen states n x := by
  have hlength : 0 < (states.drop (n - 1)).length := by
    rw [List.length_drop]
    omega
  obtain ⟨x, hx⟩ := List.exists_mem_of_length_pos hlength
  exact ⟨x, hx⟩

namespace Recorded
variable {s : Stored V} {states : List ((k : K) → V k)} {n : Nat}

theorem ne_nil (h : Recorded s states) : states ≠ [] := by
  cases h with
  | live past x => simp
  | gone _ h => exact h

/-- The row that is there is the last state. -/
theorem row_version (h : Recorded s states) {r : Row V} (hr : s.row = some r) : r.version = states.length := by
  cases h with
  | live past x =>
    cases hr
    simp
  | gone _ _ => cases hr

theorem row_seen (h : Recorded s states) {r : Row V} (hr : s.row = some r) (hle : n ≤ states.length) :
    Seen states n r.values := by
  cases h with
  | live past x =>
    cases hr
    rw [List.length_append, List.length_singleton] at hle
    rw [Seen, List.drop_append_of_le_length (by omega)]
    simp
  | gone _ _ => cases hr

/-- A version that the history does not have is the row's. -/
theorem current (h : Recorded s states) (hn : 1 ≤ n) (hle : n ≤ states.length)
    (hfree : ∀ x ∈ s.history, x.version ≠ n) :
    ∃ past x, s = ⟨some ⟨x, n⟩, archived past⟩ ∧ states = past ++ [x] ∧ n = past.length + 1 ∧
      ∀ y, Seen states n y → y = x := by
  have hold : ∀ {past : List ((k : K) → V k)}, (∀ x ∈ archived past, x.version ≠ n) → past.length < n := by
    intro past hpast
    by_contra hlt
    have hindex : n - 1 < past.length := by omega
    refine hpast _ (mem_archived.mpr ⟨n - 1, past[n - 1], List.getElem?_eq_getElem hindex, rfl⟩) ?_
    show n - 1 + 1 = n
    omega
  cases h with
  | live past x =>
    have hlt := hold hfree
    rw [List.length_append, List.length_singleton] at hle
    obtain rfl : n = past.length + 1 := by omega
    refine ⟨past, x, rfl, rfl, rfl, fun y hy => ?_⟩
    rw [Seen, Nat.add_sub_cancel, List.drop_left] at hy
    exact List.mem_singleton.mp hy
  | gone _ _ =>
    have hlt := hold hfree
    omega

end Recorded

/-! ### What a session holds -/

variable {m : Mapping K R} {states seen : List ((k : K) → V k)} {n : Nat}

/-- An instance of version `n`: what is loaded was loaded no earlier. -/
structure Reads (m : Mapping K R) (states : List ((k : K) → V k)) (n : Nat) (i : Instance V R) : Prop where
  one_le : 1 ≤ n
  le_length : n ≤ states.length
  version : i.version = ⟨some n, none⟩
  attributes : ∀ k, i.attributes k = .expired ∨ ∃ x, Seen states n x ∧ (i.attributes k).Loaded (x k)
  sync : ∀ k, i.sync k ≠ none → ∃ r ∈ m.relationships, i.relationships r = true ∧ m.hasForeignKeys r = true

/-- The flush will archive `h`. -/
structure Archives (states : List ((k : K) → V k)) (h : HistoryRow V) (i : Instance V R) : Prop where
  one_le : 1 ≤ h.version
  le_length : h.version ≤ states.length
  version : i.version = ⟨some (h.version + 1), some (some h.version)⟩
  attributes : ∀ k, ∃ x, Seen states h.version x ∧ (i.attributes k).Loaded (x k) ∧ h.columns k = some (x k)

/-- The flush will write nothing. -/
structure Idle (m : Mapping K R) (states : List ((k : K) → V k)) (work : Work V R) : Prop where
  reads : ∃ n, Reads m states n work.object
  deleted : work.deleted = false
  sync : ∀ k, work.object.sync k = none
  kept : ∀ k, ∃ x, (work.object.attributes k).Loaded x ∧ (work.object.attributes k).current = some x

inductive WorkHolds (m : Mapping K R) (states : List ((k : K) → V k)) : Work V R → Prop
  | loaded {object : Instance V R} {deleted : Bool} (n : Nat) (h : Reads m states n object) :
    WorkHolds m states ⟨object, deleted, none⟩
  | archives {object : Instance V R} {deleted : Bool} (hist : HistoryRow V) (h : Archives states hist object) :
    WorkHolds m states ⟨object, deleted, some (some hist)⟩
  | idle {object : Instance V R} {deleted : Bool} (h : Idle m states ⟨object, deleted, some none⟩) :
    WorkHolds m states ⟨object, deleted, some none⟩

theorem Reads.mono {i : Instance V R} (h : Reads m states n i) (hgrows : states <+: seen) : Reads m seen n i := by
  refine ⟨h.one_le, h.le_length.trans hgrows.length_le, h.version, fun k => ?_, h.sync⟩
  rcases h.attributes k with hexpired | ⟨x, hx, hloaded⟩
  · exact .inl hexpired
  · exact .inr ⟨x, hx.mono hgrows, hloaded⟩

/-- What others commit does not touch what a session has read. -/
theorem WorkHolds.mono {work : Work V R} (h : WorkHolds m states work) (hgrows : states <+: seen) :
    WorkHolds m seen work := by
  cases h with
  | loaded n h => exact .loaded n (h.mono hgrows)
  | archives hist h =>
    refine .archives hist ⟨h.one_le, h.le_length.trans hgrows.length_le, h.version, fun k => ?_⟩
    obtain ⟨x, hx, hloaded, hcolumn⟩ := h.attributes k
    exact ⟨x, hx.mono hgrows, hloaded, hcolumn⟩
  | idle h =>
    obtain ⟨n, hreads⟩ := h.reads
    exact .idle ⟨⟨n, hreads.mono hgrows⟩, h.deleted, h.sync, h.kept⟩

section
variable {s : Stored V} {i i' : Instance V R}

theorem Reads.loadAll (h : Recorded s states) {r : Row V} (hr : s.row = some r) (hi : Reads m states n i) :
    Reads m states n (i.loadAll r) := by
  refine ⟨hi.one_le, hi.le_length, ?_, fun k => .inr ?_, hi.sync⟩
  · show i.version.load r.version = _
    rw [hi.version]
    rfl
  · rcases hi.attributes k with hexpired | ⟨x, hx, hloaded⟩
    · exact ⟨r.values, h.row_seen hr hi.le_length, .load hexpired _⟩
    · refine ⟨x, hx, ?_⟩
      show ((i.attributes k).load (r.values k)).Loaded (x k)
      rw [AttributeState.load_of_loaded hloaded]
      exact hloaded

theorem Reads.find (h : Recorded s states) {r : Row V} (hr : s.row = some r) :
    Reads m states r.version ((Instance.new : Instance V R).loadAll r) := by
  have hversion := h.row_version hr
  have hpos := List.length_pos_of_ne_nil h.ne_nil
  refine ⟨by omega, hversion.le, rfl, fun k => .inr ⟨r.values, h.row_seen hr hversion.le, .load rfl _⟩, ?_⟩
  intro k hk
  exact absurd rfl hk

theorem Reads.set [DecidableEq K] (h : Recorded s states) (hi : Reads m states n i) {k : K}
    (hfetch : i.fetch s.row k = some i') (x : V k) : Reads m states n (i'.assign k x) := by
  have hread : ∃ y, Seen states n y ∧ Reading s.row k (i.attributes k) (y k) := by
    rcases hi.attributes k with hexpired | ⟨y, hy, hloaded⟩
    · cases hr : s.row with
      | none =>
        obtain ⟨y, hy⟩ := exists_seen hi.one_le hi.le_length
        exact ⟨y, hy, .inr ⟨hexpired, fun r hr' => by cases hr'⟩⟩
      | some r =>
        refine ⟨r.values, h.row_seen hr hi.le_length, .inr ⟨hexpired, fun r' hr' => ?_⟩⟩
        rw [Option.some.inj hr']
    · exact ⟨y, hy, .inl hloaded⟩
  obtain ⟨y, hy, hread⟩ := hread
  obtain ⟨hloaded, hothers, hversion, hrelationships, hsync, _⟩ := fetch_some hfetch hread
  refine ⟨hi.one_le, hi.le_length, hversion.trans hi.version, fun k' => ?_, fun k' hk' => ?_⟩
  · show (Function.update i'.attributes k _ k') = .expired ∨ ∃ x, _ ∧ (Function.update i'.attributes k _ k').Loaded _
    by_cases hkk : k' = k
    · subst hkk
      rw [Function.update_self]
      exact .inr ⟨y, hy, hloaded.assign x⟩
    · rw [Function.update_of_ne hkk, hothers k' hkk]
      exact hi.attributes k'
  · show ∃ r ∈ m.relationships, i'.relationships r = true ∧ _
    rw [hrelationships]
    exact hi.sync k' (hsync ▸ hk')

theorem Reads.relate [DecidableEq R] (hi : Reads m states n i) {r : R} {sync : (k : K) → Option (V k)}
    (hrelates : m.relates r sync = true) :
    Reads m states n { i with
      relationships := Function.update i.relationships r true, sync := fun k => (sync k).or (i.sync k) } := by
  obtain ⟨hr, hkeys⟩ := Bool.and_eq_true_iff.mp hrelates
  have hr : r ∈ m.relationships := by simpa using hr
  refine ⟨hi.one_le, hi.le_length, hi.version, hi.attributes, fun k hk => ?_⟩
  cases hsync : sync k with
  | some y =>
    have hkey := List.all_eq_true.mp hkeys k (m.covers k)
    rw [hsync, Option.isNone_some, Bool.false_or, Bool.and_eq_true] at hkey
    refine ⟨r, hr, ?_, hkey.1⟩
    show Function.update i.relationships r true r = true
    exact Function.update_self _ _ _
  | none =>
    obtain ⟨r', hr', hchanged, hforeign⟩ := hi.sync k (by simpa [hsync] using hk)
    refine ⟨r', hr', ?_, hforeign⟩
    show Function.update i.relationships r true r' = true
    by_cases hrr : r' = r
    · rw [hrr, Function.update_self]
    · rw [Function.update_of_ne hrr, hchanged]

end

section
variable [DecidableEq K] [∀ k, DecidableEq (V k)] {s : Stored V} {i i' : Instance V R}

/-- `before_flush` archives what the session has read, or finds nothing to flush. -/
theorem Reads.beforeFlush (h : Recorded s states) (hi : Reads m states n i) {deleted : Bool}
    {hist : Option (HistoryRow V)} (hcreate : createVersion m s.row i deleted = some (hist, i')) :
    WorkHolds m states ⟨i', deleted, some hist⟩ := by
  have hread : ∀ k, ∃ y, (∃ x, Seen states n x ∧ y = x k) ∧ Reading s.row k (i.attributes k) y := by
    intro k
    rcases hi.attributes k with hexpired | ⟨x, hx, hloaded⟩
    · cases hr : s.row with
      | none =>
        obtain ⟨x, hx⟩ := exists_seen hi.one_le hi.le_length
        exact ⟨x k, ⟨x, hx, rfl⟩, .inr ⟨hexpired, fun r hr' => by cases hr'⟩⟩
      | some r =>
        refine ⟨r.values k, ⟨r.values, h.row_seen hr hi.le_length, rfl⟩, .inr ⟨hexpired, fun r' hr' => ?_⟩⟩
        rw [Option.some.inj hr']
    · exact ⟨x k, ⟨x, hx, rfl⟩, .inl hloaded⟩
  choose read hseen hread using hread
  obtain ⟨hfetched, ⟨version, hversion, rfl, hmoved⟩ | ⟨rfl, hversion, rfl, hsame⟩⟩ :=
    createVersion_cases hread hcreate
  · rw [hi.version] at hversion hmoved
    obtain rfl : n = version := Option.some.inj hversion
    refine .archives _ ⟨hi.one_le, hi.le_length, hmoved, fun k => ?_⟩
    obtain ⟨x, hx, hreadk⟩ := hseen k
    exact ⟨x, hx, hreadk ▸ hfetched.loaded k, congrArg some hreadk⟩
  · have hreads : Reads m states n i' := by
      refine ⟨hi.one_le, hi.le_length, hversion.trans hi.version, fun k => ?_, ?_⟩
      · obtain ⟨x, hx, hreadk⟩ := hseen k
        exact .inr ⟨x, hx, hreadk ▸ hfetched.loaded k⟩
      · rw [hfetched.sync, hfetched.relationships]
        exact hi.sync
    refine .idle ⟨⟨n, hreads⟩, rfl, fun k => ?_, fun k => ⟨read k, hfetched.loaded k, ?_⟩⟩
    · by_contra hsync
      exact hsame (.inr (hreads.sync k hsync))
    · by_contra hassigned
      exact hsame (.inl ⟨k, hassigned⟩)

theorem AttributeState.update_of_kept {α : Type} [DecidableEq α] {s : AttributeState α} {x : α} (h : s.Loaded x)
    (hkept : s.current = some x) : s.update = none := by
  rcases h.getHistory with ⟨_, hhistory⟩ | ⟨y, hyx, hcurrent, _⟩
  · rw [AttributeState.update, hhistory]
    rfl
  · rw [hkept] at hcurrent
    exact absurd (Option.some.inj hcurrent).symm hyx

/-- What an `UPDATE` leaves an attribute with, over the value that it was. -/
theorem AttributeState.update_or {α : Type} [DecidableEq α] {s : AttributeState α} {x : α} (h : s.Loaded x)
    (y : Option α) : s.update.isNone = true ∧ s.current = some x ∨
      ∃ z, s.current = some z ∧ (s.update.or y).getD x = z ∧ s.update.isNone = false := by
  rcases h.getHistory with ⟨hcurrent, hhistory⟩ | ⟨z, _, hcurrent, hhistory⟩
  · refine .inl ⟨?_, hcurrent⟩
    rw [AttributeState.update, hhistory]
    rfl
  · refine .inr ⟨z, hcurrent, ?_, ?_⟩ <;> rw [AttributeState.update, hhistory] <;> rfl

/-! ### A flush -/

variable {s' : Stored V} {versioned : Bool} {onUpdate : (k : K) → Option (V k)} {work : Work V R}

omit [DecidableEq K] [∀ k, DecidableEq (V k)] in
theorem Instance.synced_loaded {k : K} {x : V k} (h : (i.attributes k).Loaded x) :
    (i.synced.attributes k).Loaded x := by
  show (match i.sync k with | some y => (i.attributes k).assign y | none => i.attributes k).Loaded x
  cases i.sync k with
  | none => exact h
  | some y => exact h.assign y

omit [DecidableEq K] [∀ k, DecidableEq (V k)] in
theorem Instance.synced_of_none {k : K} (h : i.sync k = none) : i.synced.attributes k = i.attributes k := by
  show (match i.sync k with | some y => (i.attributes k).assign y | none => i.attributes k) = _
  rw [h]

omit [DecidableEq K] in
/-- The flushed instance is the row that was written. -/
theorem flushed_reads {x : (k : K) → V k} (hloaded : ∀ k, (i.attributes k).Loaded (x k)) (hupdates : i.updates m = true)
    {version : Nat} (hversion : i.version.current = some (version + 1)) {past : List ((k : K) → V k)}
    (hlength : past.length = version) (old : Nat) :
    Reads m (past ++ [(i.written onUpdate ⟨x, old⟩).values]) (version + 1) (i.flushed m onUpdate) := by
  have hseen : Seen (past ++ [(i.written onUpdate ⟨x, old⟩).values]) (version + 1)
      (i.written onUpdate ⟨x, old⟩).values := by
    rw [Seen, Nat.add_sub_cancel, ← hlength, List.drop_left]
    exact List.mem_singleton.mpr rfl
  refine ⟨by omega, by simp [hlength], ?_, fun k => ?_, fun k hk => absurd rfl hk⟩
  · show (⟨i.version.current, none⟩ : AttributeState Nat) = _
    rw [hversion]
  · have hvalue : (i.written onUpdate ⟨x, old⟩).values k = ((i.attributes k).update.or (onUpdate k)).getD (x k) := rfl
    have hstate : (i.flushed m onUpdate).attributes k =
        ⟨if (i.attributes k).update.isNone && (onUpdate k).isSome then none else (i.attributes k).current, none⟩ := by
      show (⟨if i.updates m && _ && _ then none else _, none⟩ : AttributeState (V k)) = _
      rw [hupdates, Bool.true_and]
    rcases AttributeState.update_or (hloaded k) (onUpdate k) with ⟨hnone, hcurrent⟩ | ⟨z, hcurrent, hz, hsome⟩
    · cases ho : onUpdate k with
      | some y =>
        rw [ho, hnone] at hstate
        exact .inl hstate
      | none =>
        rw [ho, hnone, hcurrent] at hstate
        refine .inr ⟨_, hseen, ?_⟩
        rw [hstate, hvalue, ho, Option.isNone_iff_eq_none.mp hnone]
        exact ⟨Option.some_ne_none _, rfl⟩
    · rw [hsome, hcurrent] at hstate
      refine .inr ⟨_, hseen, ?_⟩
      rw [hstate, hvalue, hz]
      exact ⟨Option.some_ne_none _, rfl⟩

omit [DecidableEq K] in
/-- **A flush that archives replaces just the state that it archives**: were its
session's version an older one, the history would have it already. -/
theorem Recorded.flush {hist : HistoryRow V} (h : Recorded s states) (hw : Archives states hist work.object)
    (hs' : s.flush m versioned onUpdate work (some hist) = some s') :
    ∃ past x, s = ⟨some ⟨x, hist.version⟩, archived past⟩ ∧ states = past ++ [x] ∧
      hist.columns = (fun k => some (x k)) ∧
      (work.deleted = true ∧ Recorded s' states ∨
        work.deleted = false ∧ ∃ y, Recorded s' (states ++ [y]) ∧
          Reads m (states ++ [y]) (hist.version + 1) (work.object.synced.flushed m onUpdate)) := by
  simp only [Stored.flush, Stored.insertHistory, Option.bind_eq_bind, Option.bind_eq_some_iff] at hs'
  obtain ⟨history, hinsert, hs'⟩ := hs'
  split at hinsert
  · cases hinsert
  · rename_i hfree
    cases hinsert
    obtain ⟨past, x, rfl, rfl, hversion, hcurrent⟩ := h.current hw.one_le hw.le_length
      fun y hy he => hfree ⟨y, hy, he⟩
    have hread : ∀ k, (work.object.attributes k).Loaded (x k) ∧ hist.columns k = some (x k) := by
      intro k
      obtain ⟨y, hy, hloaded, hcolumn⟩ := hw.attributes k
      rw [hcurrent y hy] at hloaded hcolumn
      exact ⟨hloaded, hcolumn⟩
    have hcolumns : hist.columns = fun k => some (x k) := funext fun k => (hread k).2
    have harchived : archived past ++ [hist] = archived (past ++ [x]) := by
      rw [archived_concat, ← hversion, ← hcolumns]
    refine ⟨past, x, rfl, rfl, hcolumns, ?_⟩
    cases hdeleted : work.deleted with
    | true =>
      simp only [hdeleted, if_true] at hs'
      split at hs'
      · cases hs'
        rw [harchived]
        exact .inl ⟨rfl, .gone _ (by simp)⟩
      · cases hs'
    | false =>
      have hobject : work.object.synced.version = ⟨some (hist.version + 1), some (some hist.version)⟩ := hw.version
      have hmoved : work.object.synced.version.update = some (hist.version + 1) := by
        rw [hobject, AttributeState.update, AttributeState.getHistory]
        simp
      have hupdates : work.object.synced.updates m = true := by
        rw [Instance.updates, hmoved]
        rfl
      simp only [hdeleted, Bool.false_eq_true, if_false, hupdates, if_true, Option.bind_some] at hs'
      split at hs'
      · cases hs'
        refine .inr ⟨rfl, (work.object.synced.written onUpdate ⟨x, hist.version⟩).values, ?_, ?_⟩
        · rw [harchived]
          have hrow : work.object.synced.written onUpdate ⟨x, hist.version⟩ =
              ⟨(work.object.synced.written onUpdate ⟨x, hist.version⟩).values, (past ++ [x]).length + 1⟩ := by
            rw [Instance.written, hmoved, List.length_append, List.length_singleton, ← hversion]
            rfl
          rw [hrow]
          exact .live _ _
        · exact flushed_reads (fun k => Instance.synced_loaded (hread k).1) hupdates
            (by rw [hobject]) (by simp [hversion]) _
      · cases hs'

omit [DecidableEq K] in
/-- A flush with nothing to archive writes nothing. -/
theorem Idle.flush (h : Idle m states work) (hs' : s.flush m versioned onUpdate work none = some s') :
    s' = s ∧ work.writes m none = false ∧ ∃ n, Reads m states n (work.object.synced.flushed m onUpdate) := by
  obtain ⟨n, hreads⟩ := h.reads
  have hkept : ∀ k, ∃ x, (work.object.synced.attributes k).Loaded x ∧
      (work.object.synced.attributes k).current = some x ∧ (work.object.synced.attributes k).update = none := by
    intro k
    obtain ⟨x, hloaded, hcurrent⟩ := h.kept k
    rw [Instance.synced_of_none (h.sync k)]
    exact ⟨x, hloaded, hcurrent, AttributeState.update_of_kept hloaded hcurrent⟩
  have hversion : work.object.synced.version = ⟨some n, none⟩ := hreads.version
  have hupdates : work.object.synced.updates m = false := by
    rw [Instance.updates, hversion, Bool.or_eq_false_iff]
    refine ⟨rfl, List.any_eq_false.mpr fun k _ => ?_⟩
    obtain ⟨_, _, _, hnone⟩ := hkept k
    simp [hnone]
  simp only [Stored.flush, Stored.insertHistory, h.deleted, hupdates, Option.bind_eq_bind, Option.bind_some,
    Bool.false_eq_true, if_false, Option.some.injEq] at hs'
  refine ⟨hs'.symm, ?_, n, hreads.one_le, hreads.le_length, ?_, fun k => ?_, fun k hk => absurd rfl hk⟩
  · simp [Work.writes, h.deleted, hupdates]
  · show (⟨work.object.synced.version.current, none⟩ : AttributeState Nat) = _
    rw [hversion]
  · obtain ⟨x, hloaded, hcurrent, _⟩ := hkept k
    have hstate : (work.object.synced.flushed m onUpdate).attributes k = ⟨some x, none⟩ := by
      show (⟨if work.object.synced.updates m && _ && _ then none else _, none⟩ : AttributeState (V k)) = _
      rw [hupdates, Bool.false_and, Bool.false_and, hcurrent]
      rfl
    rw [hstate]
    rcases hreads.attributes k with hexpired | ⟨y, hy, hloaded'⟩
    · exact absurd (Instance.synced_of_none (h.sync k) ▸ hcurrent) (by rw [hexpired]; exact (Option.some_ne_none x).symm)
    · have hsame : x = y k := by
        have hboth := hloaded.original.symm.trans (Instance.synced_of_none (h.sync k) ▸ hloaded'.original)
        exact Option.some.inj hboth
      exact .inr ⟨y, hy, ⟨Option.some_ne_none x, congrArg some hsame⟩⟩

end

/-! ### All sessions -/

section
variable [DecidableEq T] {w w' : World T V R} {t u : T}

/-- The states that a session sees: `seen`, if it is the one that has written. -/
def World.statesOf (w : World T V R) (t : T) (states seen : List ((k : K) → V k)) : List ((k : K) → V k) :=
  if w.begunBy t then seen else states

structure Consistent (m : Mapping K R) (w : World T V R) (states seen : List ((k : K) → V k)) : Prop where
  committed : Recorded w.committed states
  idle : w.begun = none → seen = states
  begun : ∀ t s, w.begun = some (t, s) → Recorded s seen
  grows : states <+: seen
  works : ∀ t work, w.works t = some work → WorkHolds m (w.statesOf t states seen) work

namespace Consistent

theorem start (x : (k : K) → V k) : Consistent m (World.start x : World T V R) [x] [x] :=
  ⟨.live [] x, fun _ => rfl, fun _ _ h => (by cases h), List.prefix_refl _, fun _ _ h => (by cases h)⟩

theorem view (h : Consistent m w states seen) (t : T) : Recorded (w.view t) (w.statesOf t states seen) := by
  unfold World.view World.statesOf World.begunBy
  cases hbegun : w.begun with
  | none => exact h.committed
  | some x =>
    obtain ⟨u, s⟩ := x
    by_cases hu : u = t
    · simpa [hu] using h.begun u s hbegun
    · simpa [hu] using h.committed

theorem put (h : Consistent m w states seen) {work : Option (Work V R)}
    (hwork : ∀ x, work = some x → WorkHolds m (w.statesOf t states seen) x) :
    Consistent m (w.put t work) states seen := by
  refine ⟨h.committed, h.idle, h.begun, h.grows, fun u x hx => ?_⟩
  have hx : Function.update w.works t work u = some x := hx
  by_cases hu : u = t
  · subst hu
    rw [Function.update_self] at hx
    exact hwork x hx
  · rw [Function.update_of_ne hu] at hx
    exact h.works u x hx

/-- A rollback leaves what was committed, and the others. -/
theorem fail (h : Consistent m w states seen) (t : T) : ∃ seen', Consistent m (w.fail t) states seen' := by
  have hothers : ∀ {u x}, Function.update w.works t none u = some x → u ≠ t ∧ w.works u = some x := by
    intro u x hx
    by_cases hu : u = t
    · subst hu
      rw [Function.update_self] at hx
      cases hx
    · rw [Function.update_of_ne hu] at hx
      exact ⟨hu, hx⟩
  by_cases ht : w.begunBy t = true
  · refine ⟨states, h.committed, fun _ => rfl, fun u s hu => ?_, List.prefix_refl _, fun u x hx => ?_⟩
    · have hu : (if w.begunBy t then none else w.begun) = some (u, s) := hu
      rw [if_pos ht] at hu
      cases hu
    · obtain ⟨hne, hx⟩ := hothers hx
      have hnot : w.begunBy u = false := by
        unfold World.begunBy at ht ⊢
        cases hbegun : w.begun with
        | none => rfl
        | some y =>
          rw [hbegun] at ht
          have hy : y.1 = t := by simpa using ht
          simp [hy, Ne.symm hne]
      have hwork := h.works u x hx
      rw [World.statesOf, hnot, if_neg Bool.false_ne_true] at hwork
      rw [World.statesOf]
      split <;> exact hwork
  · have hbegun : (w.fail t).begun = w.begun := if_neg ht
    refine ⟨seen, h.committed, fun hnone => h.idle (hbegun ▸ hnone), fun u s hu => h.begun u s (hbegun ▸ hu),
      h.grows, fun u x hx => ?_⟩
    obtain ⟨_, hx⟩ := hothers hx
    have hsame : (w.fail t).statesOf u states seen = w.statesOf u states seen := by
      rw [World.statesOf, World.statesOf, World.begunBy, hbegun, World.begunBy]
    rw [hsame]
    exact h.works u x hx

/-- What the transaction has made of the rows is committed. -/
theorem commit (h : Consistent m w states seen) {s : Stored V} (hbegun : w.begun = some (t, s)) :
    Consistent m ({ w with committed := s, begun := none } : World T V R) seen seen := by
  refine ⟨h.begun t s hbegun, fun _ => rfl, fun _ _ hnone => (by cases hnone), List.prefix_refl _, fun u x hx => ?_⟩
  have hwork := h.works u x hx
  have hgrows : w.statesOf u states seen <+: seen := by
    rw [World.statesOf]
    split
    · exact List.prefix_refl _
    · exact h.grows
  have hsame : ({ w with committed := s, begun := none } : World T V R).statesOf u seen seen = seen := by
    rw [World.statesOf]
    split <;> rfl
  rw [hsame]
  exact hwork.mono hgrows

/-- The session that has written, or may write, sees all that was written. -/
theorem statesOf_free (h : Consistent m w states seen) (hfree : w.blocked t = false) :
    w.statesOf t states seen = seen := by
  rw [World.statesOf, World.begunBy]
  unfold World.blocked at hfree
  cases hbegun : w.begun with
  | none => rw [h.idle hbegun, ite_self]
  | some x =>
    rw [hbegun] at hfree
    have hx : x.1 = t := by simpa using hfree
    rw [Option.any_some, if_pos (decide_eq_true hx)]

/-- The others see what they saw. -/
theorem statesOf_other (hfree : w.blocked t = false) (hu : u ≠ t) :
    w.statesOf u states seen = states := by
  rw [World.statesOf, World.begunBy]
  unfold World.blocked at hfree
  cases hbegun : w.begun with
  | none => exact if_neg Bool.false_ne_true
  | some x =>
    rw [hbegun] at hfree
    have hx : x.1 = t := by simpa using hfree
    have hne : ¬ x.1 = u := fun he => hu (he.symm.trans hx)
    rw [Option.any_some, if_neg (by simpa using hne)]

section
variable [DecidableEq K] [∀ k, DecidableEq (V k)] {versioned : Bool} {onUpdate : (k : K) → Option (V k)}
  {work : Work V R}

omit [DecidableEq K] in
/-- A flush that archives adds a state to what its transaction has written, or takes
the row away. -/
theorem flush_archives (h : Consistent m w states seen) {hist : HistoryRow V} (hfree : w.blocked t = false)
    (hw : Archives (w.statesOf t states seen) hist work.object) {s : Stored V}
    (hs : (w.view t).flush m versioned onUpdate work (some hist) = some s) :
    ∃ seen', Consistent m (w.flushed m t work (some hist) s onUpdate) states seen' := by
  have hview := h.view t
  rw [h.statesOf_free hfree] at hw hview
  have hbegun : (w.flushed m t work (some hist) s onUpdate).begun = some (t, s) := rfl
  have hsees : ∀ u (seen' : List ((k : K) → V k)),
      (w.flushed m t work (some hist) s onUpdate).statesOf u states seen' = if u = t then seen' else states := by
    intro u seen'
    rw [World.statesOf, World.begunBy, hbegun, Option.any_some]
    by_cases hu : u = t
    · simp [hu]
    · simp [hu, Ne.symm hu]
  obtain ⟨past, x, _, _, _, hend⟩ := hview.flush hw hs
  -- in either case: what was written, and what the session is left with
  obtain ⟨seen', hrecorded, hgrows, hwork⟩ : ∃ seen', Recorded s seen' ∧ seen <+: seen' ∧
      ∀ y, (if work.deleted then none else some ⟨work.object.synced.flushed m onUpdate, false, none⟩) = some y →
        WorkHolds m seen' y := by
    rcases hend with ⟨hdeleted, hgone⟩ | ⟨hdeleted, y, hlive, hreads⟩
    · refine ⟨seen, hgone, List.prefix_refl _, fun y hy => ?_⟩
      rw [hdeleted, if_pos rfl] at hy
      cases hy
    · refine ⟨seen ++ [y], hlive, List.prefix_append _ _, fun z hz => ?_⟩
      rw [hdeleted, if_neg Bool.false_ne_true] at hz
      cases hz
      exact .loaded _ hreads
  refine ⟨seen', h.committed, fun hnone => ?_, fun u s' hu => ?_, h.grows.trans hgrows, fun u y hy => ?_⟩
  · rw [hbegun] at hnone
    cases hnone
  · rw [hbegun] at hu
    cases hu
    exact hrecorded
  · have hy : Function.update w.works t _ u = some y := hy
    rw [hsees]
    by_cases hu : u = t
    · subst hu
      rw [Function.update_self] at hy
      rw [if_pos rfl]
      exact hwork y hy
    · rw [Function.update_of_ne hu] at hy
      rw [if_neg hu, ← @statesOf_other _ _ _ _ states seen _ w _ _ hfree hu]
      exact h.works u y hy

omit [DecidableEq K] in
theorem flush_idle (h : Consistent m w states seen) (hw : Idle m (w.statesOf t states seen) work) {s : Stored V}
    (hs : (w.view t).flush m versioned onUpdate work none = some s) :
    Consistent m (w.flushed m t work none s onUpdate) states seen := by
  obtain ⟨_, hwrites, n, hreads⟩ := hw.flush hs
  have hput : w.flushed m t work none s onUpdate =
      w.put t (some ⟨work.object.synced.flushed m onUpdate, false, none⟩) := by
    rw [World.flushed, hwrites, hw.deleted]
    rfl
  rw [hput]
  refine h.put fun y hy => ?_
  cases hy
  exact .loaded n hreads

omit [DecidableEq K] [∀ k, DecidableEq (V k)] in
/-- What a work holds that has nothing staged. -/
theorem idle_reads (h : Consistent m w states seen) (hidle : w.idle t = true) (hwork : w.works t = some work) :
    ∃ n, Reads m (w.statesOf t states seen) n work.object ∧ work.staged = none := by
  have hstaged : work.staged = none := by simpa [World.idle, hwork] using hidle
  have hholds := h.works t work hwork
  cases hholds with
  | loaded n hreads => exact ⟨n, hreads, rfl⟩
  | archives _ _ => cases hstaged
  | idle _ => cases hstaged

/-! One lemma for each act. -/

section
variable [DecidableEq R] (h : Consistent m w states seen)
include h

theorem next_load (hstep : w.next m versioned t .load = some w') : Consistent m w' states seen := by
  simp only [World.next, Option.bind_eq_bind, Option.bind_eq_some_iff] at hstep
  obtain ⟨row, hrow, hstep⟩ := hstep
  split at hstep
  · rename_i hidle
    cases hstep
    refine h.put fun y hy => ?_
    cases hy
    cases hwork : w.works t with
    | none => exact .loaded _ (Reads.find (h.view t) hrow)
    | some work =>
      obtain ⟨n, hreads, hstaged⟩ := h.idle_reads hidle hwork
      rw [Option.getD_some, hstaged]
      exact .loaded n (hreads.loadAll (h.view t) hrow)
  · cases hstep

theorem next_set {k : K} {x : V k} (hstep : w.next m versioned t (.set k x) = some w') :
    Consistent m w' states seen := by
  simp only [World.next, Option.bind_eq_bind, Option.bind_eq_some_iff] at hstep
  obtain ⟨work, hwork, object, hobject, hstep⟩ := hstep
  split at hstep
  · rename_i hguard
    cases hstep
    obtain ⟨n, hreads, hstaged⟩ := h.idle_reads (Bool.and_eq_true_iff.mp hguard).1 hwork
    refine h.put fun y hy => ?_
    cases hy
    rw [hstaged]
    exact .loaded n (Reads.set (h.view t) hreads hobject x)
  · cases hstep

theorem next_relate {r : R} {sync : (k : K) → Option (V k)}
    (hstep : w.next m versioned t (.relate r sync) = some w') : Consistent m w' states seen := by
  simp only [World.next, Option.bind_eq_bind, Option.bind_eq_some_iff] at hstep
  obtain ⟨work, hwork, hstep⟩ := hstep
  split at hstep
  · rename_i hguard
    obtain ⟨hidle, hrelates⟩ := Bool.and_eq_true_iff.mp hguard
    cases hstep
    obtain ⟨n, hreads, hstaged⟩ := h.idle_reads hidle hwork
    refine h.put fun y hy => ?_
    cases hy
    rw [hstaged]
    exact .loaded n (hreads.relate hrelates)
  · cases hstep

theorem next_delete (hstep : w.next m versioned t .delete = some w') : Consistent m w' states seen := by
  simp only [World.next, Option.bind_eq_bind, Option.bind_eq_some_iff] at hstep
  obtain ⟨work, hwork, hstep⟩ := hstep
  split at hstep
  · rename_i hidle
    cases hstep
    obtain ⟨n, hreads, hstaged⟩ := h.idle_reads hidle hwork
    refine h.put fun y hy => ?_
    cases hy
    rw [hstaged]
    exact .loaded n hreads
  · cases hstep

theorem next_expire (hstep : w.next m versioned t .expire = some w') : Consistent m w' states seen := by
  simp only [World.next] at hstep
  split at hstep
  · cases hstep
    exact h.put fun y hy => (by cases hy)
  · cases hstep

theorem next_beforeFlush (hstep : w.next m versioned t .beforeFlush = some w') :
    ∃ seen', Consistent m w' states seen' := by
  simp only [World.next, Option.bind_eq_bind, Option.bind_eq_some_iff] at hstep
  obtain ⟨work, hwork, hstep⟩ := hstep
  split at hstep
  · rename_i hidle
    obtain ⟨n, hreads, _⟩ := h.idle_reads hidle hwork
    split at hstep
    · cases hstep
      exact h.fail t
    · rename_i hist object hcreate
      cases hstep
      refine ⟨seen, h.put fun y hy => ?_⟩
      cases hy
      exact hreads.beforeFlush (h.view t) hcreate
  · cases hstep

theorem next_flush {onUpdate : (k : K) → Option (V k)} (hstep : w.next m versioned t (.flush onUpdate) = some w') :
    ∃ seen', Consistent m w' states seen' := by
  simp only [World.next, Option.bind_eq_bind, Option.bind_eq_some_iff] at hstep
  obtain ⟨work, hwork, hist, hstaged, hstep⟩ := hstep
  split at hstep
  · cases hstep
  · rename_i hblocked
    split at hstep
    · cases hstep
      exact h.fail t
    · rename_i s hs
      cases hstep
      have hholds := h.works t work hwork
      cases hholds with
      | loaded _ _ => cases hstaged
      | archives hist hw =>
        cases hstaged
        have hfree : w.blocked t = false := by simpa [Work.writes] using hblocked
        exact h.flush_archives hfree hw hs
      | idle hw =>
        cases hstaged
        exact ⟨seen, h.flush_idle hw hs⟩

theorem next_commit (hstep : w.next m versioned t .commit = some w') : Consistent m w' seen seen := by
  simp only [World.next, Option.bind_eq_bind, Option.bind_eq_some_iff] at hstep
  obtain ⟨⟨u, s⟩, hbegun, hstep⟩ := hstep
  dsimp only at hstep
  split at hstep
  · cases hstep
    exact h.commit hbegun
  · cases hstep

/-- **What one step preserves.** Only a commit adds to the states that are committed. -/
theorem next {a : Act V R} (hstep : w.next m versioned t a = some w') :
    ∃ states' seen', Consistent m w' states' seen' ∧ states <+: states' := by
  have hkept : (∃ seen', Consistent m w' states seen') →
      ∃ states' seen', Consistent m w' states' seen' ∧ states <+: states' :=
    fun hsame => hsame.elim fun seen' h' => ⟨states, seen', h', List.prefix_refl _⟩
  cases a with
  | load => exact hkept ⟨seen, h.next_load hstep⟩
  | set k x => exact hkept ⟨seen, h.next_set hstep⟩
  | relate r sync => exact hkept ⟨seen, h.next_relate hstep⟩
  | delete => exact hkept ⟨seen, h.next_delete hstep⟩
  | expire => exact hkept ⟨seen, h.next_expire hstep⟩
  | beforeFlush => exact hkept (h.next_beforeFlush hstep)
  | flush onUpdate => exact hkept (h.next_flush hstep)
  | commit => exact ⟨seen, seen, h.next_commit hstep, h.grows⟩
  | rollback =>
    cases hstep
    exact hkept (h.fail t)

end

theorem run [DecidableEq R] (h : Consistent m w states seen) {steps : List (T × Act V R)}
    (hrun : w.run m versioned steps = some w') :
    ∃ states' seen', Consistent m w' states' seen' ∧ states <+: states' := by
  induction steps generalizing w states seen with
  | nil =>
    cases hrun
    exact ⟨states, seen, h, List.prefix_refl _⟩
  | cons step steps ih =>
    obtain ⟨w₁, hstep, hrest⟩ := Option.bind_eq_some_iff.mp hrun
    obtain ⟨states₁, seen₁, h₁, hgrows₁⟩ := h.next hstep
    obtain ⟨states', seen', h', hgrows⟩ := ih h₁ hrest
    exact ⟨states', seen', h', hgrows₁.trans hgrows⟩

end

end Consistent

end

end Statement.Persistence
