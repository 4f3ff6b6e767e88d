import Statement.Read.ListQuery

/-! The cursor condition over any columns: `build_cursor_condition`.

The condition is kept as the expression that the loop builds, a disjunction of
conjunctions of comparisons, and evaluated on a row. An `or_()` of nothing is no
criterion at all, so it holds of every row. -/
namespace Statement.Read.CursorCondition
open Domain Foundation

inductive Operator where
  | eq | gt | lt
  deriving DecidableEq

/-- A column compared with a value of the cursor. -/
structure Comparison (κ ν : Type) where
  column : κ
  operator : Operator
  value : ν

/-- A disjunction of conjunctions. -/
abbrev Condition (κ ν : Type) := List (List (Comparison κ ν))

/-- The `ValueError` of `zip(..., strict=True)`. -/
inductive BuildError where
  | lengths
  deriving DecidableEq

/-- `column > cursor_value` or `column < cursor_value`. -/
def operatorOf : SortDirection → Operator
  | .asc => .gt
  | .desc => .lt

section
variable {κ ν ρ : Type}

/-- What the loop appends, place by place. -/
def alternatives (ordering : List (κ × SortDirection)) (cursorValues : List ν) : Condition κ ν :=
  (ordering.zip cursorValues).zipIdx.map fun (((column, direction), cursorValue), index) =>
    ((ordering.take index).zip (cursorValues.take index)).map
      (fun ((precedingColumn, _), precedingValue) => ⟨precedingColumn, .eq, precedingValue⟩) ++
    [⟨column, operatorOf direction, cursorValue⟩]

def build (ordering : List (κ × SortDirection)) (cursorValues : List ν) :
    Except BuildError (Condition κ ν) :=
  if ordering.length = cursorValues.length then .ok (alternatives ordering cursorValues)
  else .error .lengths

/-- The values of a row in the columns of an ordering. -/
def tuple (get : κ → ρ → ν) (ordering : List (κ × SortDirection)) (row : ρ) : List ν :=
  ordering.map fun o => get o.1 row

/-- Which places are descending. -/
def directions (ordering : List (κ × SortDirection)) : List Bool := ordering.map fun o => o.2 = .desc

theorem length_tuple (get : κ → ρ → ν) (ordering : List (κ × SortDirection)) (row : ρ) :
    (tuple get ordering row).length = ordering.length := by
  simp [tuple]

theorem length_directions (ordering : List (κ × SortDirection)) :
    (directions ordering).length = ordering.length := by
  simp [directions]

/-- The first place is compared alone, and is equal in every other alternative. -/
theorem alternatives_cons (column : κ) (direction : SortDirection) (ordering : List (κ × SortDirection))
    (value : ν) (values : List ν) :
    alternatives ((column, direction) :: ordering) (value :: values) =
      [⟨column, operatorOf direction, value⟩] ::
        (alternatives ordering values).map (⟨column, .eq, value⟩ :: ·) := by
  rw [alternatives, List.zip_cons_cons, List.zipIdx_cons, List.map_cons, List.zipIdx_succ, List.map_map,
    alternatives, List.map_map]
  rfl

variable [LinearOrder ν] (get : κ → ρ → ν)

def Comparison.holds (row : ρ) (c : Comparison κ ν) : Bool :=
  match c.operator with
  | .eq => get c.column row = c.value
  | .gt => c.value < get c.column row
  | .lt => get c.column row < c.value

def Condition.holds (row : ρ) (condition : Condition κ ν) : Bool :=
  condition.isEmpty || condition.any fun conjunction => conjunction.all (Comparison.holds get row)

/-- The row passes the condition that is built for the cursor. -/
def Passes (ordering : List (κ × SortDirection)) (cursorValues : List ν) (row : ρ) : Prop :=
  ∃ condition, build ordering cursorValues = .ok condition ∧ condition.holds get row = true

/-! ### What it selects -/

/-- Some alternative holds exactly when the row's values come after the cursor's: by
induction on the ordering, of which the first place decides or is equal. -/
theorem alternatives_any {ordering : List (κ × SortDirection)} {values : List ν}
    (h : values.length = ordering.length) (row : ρ) :
    (alternatives ordering values).any (fun c => c.all (Comparison.holds get row)) = true ↔
      ComesAfter (directions ordering) values (tuple get ordering row) := by
  induction ordering generalizing values with
  | nil =>
    obtain rfl : values = [] := List.length_eq_zero_iff.mp h
    simp [alternatives, ComesAfter, directions]
  | cons o ordering ih =>
    obtain ⟨column, direction⟩ := o
    obtain ⟨value, values, rfl⟩ := List.exists_cons_of_length_eq_add_one h
    have ih := ih (Nat.succ.inj h)
    have hfirst : [(⟨column, operatorOf direction, value⟩ : Comparison κ ν)].all (Comparison.holds get row) =
        true ↔ if decide (direction = .desc) then get column row < value else value < get column row := by
      cases direction <;> simp [Comparison.holds, operatorOf]
    have hrest : (alternatives ordering values).any ((fun c => c.all (Comparison.holds get row)) ∘
          (⟨column, .eq, value⟩ :: ·)) = true ↔
        value = get column row ∧
          (alternatives ordering values).any (fun c => c.all (Comparison.holds get row)) = true := by
      simp only [List.any_eq_true, Function.comp_apply, List.all_cons, Bool.and_eq_true, Comparison.holds,
        decide_eq_true_eq]
      constructor
      · rintro ⟨c, hc, heq, hall⟩
        exact ⟨heq.symm, c, hc, hall⟩
      · rintro ⟨heq, c, hc, hall⟩
        exact ⟨c, hc, heq.symm, hall⟩
    rw [alternatives_cons, List.any_cons, List.any_map, Bool.or_eq_true, hfirst, hrest, ih]
    rfl

section
variable {get} {ordering : List (κ × SortDirection)} {values : List ν}

/-- On an ordering of at least one column, the condition is the lexicographic order. -/
theorem passes_iff (hne : ordering ≠ []) (h : values.length = ordering.length) (row : ρ) :
    Passes get ordering values row ↔ ComesAfter (directions ordering) values (tuple get ordering row) := by
  have hsome : (alternatives ordering values).isEmpty = false := by
    obtain ⟨o, ordering, rfl⟩ := List.exists_cons_of_ne_nil hne
    obtain ⟨value, values, rfl⟩ := List.exists_cons_of_length_eq_add_one h
    rw [alternatives_cons]
    rfl
  rw [← alternatives_any get h row, Passes, build, if_pos h.symm]
  constructor
  · rintro ⟨condition, heq, hholds⟩
    cases heq
    rwa [Condition.holds, hsome, Bool.false_or] at hholds
  · intro hany
    exact ⟨_, rfl, by rwa [Condition.holds, hsome, Bool.false_or]⟩

/-- The condition of `list_all` is this one, over the columns that it sorts by. -/
theorem buildCursorCondition_eq [LinearOrder Currency] [LinearOrder CustomerAccountStatus]
    {ordering : List (Column × SortDirection)} {values : List ColumnValue} (hne : ordering ≠ [])
    (h : values.length = ordering.length) (row : CustomerAccount) :
    buildCursorCondition ordering values row = true ↔
      Passes (fun column row => column.get row) ordering values row := by
  rw [passes_iff hne h, ← alternatives_any _ h row, buildCursorCondition, alternatives, List.any_map]
  refine iff_of_eq (congrArg (· = true) (List.any_congr rfl fun ⟨((column, direction), value), index⟩ => ?_))
  simp only [Function.comp_apply, List.all_append, List.all_map, List.all_cons, List.all_nil, Bool.and_true]
  -- the two sides differ in how they decide that two values are equal
  refine congrArg₂ (· && ·) (List.all_congr rfl fun x => ?_) ?_
  · exact decide_eq_decide.mpr Iff.rfl
  · cases direction <;> rfl

end

/-- **The cursor condition is the mixed-direction lexicographic order**, on every ordering
of at least one column. -/
theorem cursor_condition_lexicographic (ordering : List (κ × SortDirection)) (hne : ordering ≠ []) :
    (∀ cursor : List ν, cursor.length = ordering.length →
      (∃ condition, build ordering cursor = .ok condition) ∧
      ∀ row, Passes get ordering cursor row ↔
        ComesAfter (directions ordering) cursor (tuple get ordering row)) ∧
    (∀ row, ¬ Passes get ordering (tuple get ordering row) row) ∧
    (∀ q r, tuple get ordering q ≠ tuple get ordering r →
      (Passes get ordering (tuple get ordering q) r ∧ ¬ Passes get ordering (tuple get ordering r) q) ∨
      (Passes get ordering (tuple get ordering r) q ∧ ¬ Passes get ordering (tuple get ordering q) r)) ∧
    ∀ (cursor : List ν) q r, cursor.length = ordering.length → Passes get ordering cursor q →
      Passes get ordering (tuple get ordering q) r → Passes get ordering cursor r := by
  have hrow : ∀ row, (tuple get ordering row).length = (directions ordering).length := fun row =>
    (length_tuple get ordering row).trans (length_directions ordering).symm
  have hpasses : ∀ q r, Passes get ordering (tuple get ordering q) r ↔
      ComesAfter (directions ordering) (tuple get ordering q) (tuple get ordering r) := fun q r =>
    passes_iff hne (length_tuple get ordering q) r
  refine ⟨fun cursor h => ⟨⟨_, if_pos h.symm⟩, fun row => passes_iff hne h row⟩, fun row => ?_,
    fun q r hdiffer => ?_, fun cursor q r h hq hr => ?_⟩
  · rw [hpasses]
    exact ComesAfter.irrefl (hrow row)
  · rw [hpasses, hpasses]
    exact ComesAfter.xor (hrow q) (hrow r) hdiffer
  · have hcursor := h.trans (length_directions ordering).symm
    rw [passes_iff hne h] at hq ⊢
    rw [hpasses] at hr
    exact hq.trans hcursor (hrow q) (hrow r) hr

end

/-! ### Two orderings -/

/-- The two columns of a row of two numbers. -/
def pairColumn (first : Bool) (row : Int × Int) : Int := if first then row.1 else row.2

/-- On no column at all, no row comes after the cursor, and every row passes. -/
theorem no_columns_pass : Passes pairColumn [] [] (1, 5) ∧
    ¬ ComesAfter (directions ([] : List (Bool × SortDirection))) [] (tuple pairColumn [] (1, 5)) :=
  ⟨⟨[], rfl, rfl⟩, fun h => h⟩

/-- By the first column ascending, by the second descending, and by the first again. -/
theorem pairs_ordered :
    Passes pairColumn [(true, .asc), (false, .desc), (true, .asc)] [1, 7, 1] (1, 5) ∧
      ¬ Passes pairColumn [(true, .asc), (false, .desc), (true, .asc)] [1, 7, 1] (1, 8) := by
  obtain ⟨hselects, _⟩ := cursor_condition_lexicographic pairColumn
    [(true, .asc), (false, .desc), (true, .asc)] (by decide)
  obtain ⟨_, hpasses⟩ := hselects [1, 7, 1] rfl
  rw [hpasses, hpasses]
  simp [ComesAfter, directions, tuple, pairColumn]

end Statement.Read.CursorCondition
