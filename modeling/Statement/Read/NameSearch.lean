import Statement.Foundation.LikePattern
import Statement.Read.NameFilter

/-! The name filter as the database evaluates it.

`ILIKE` folds the case of the pattern and of the name and then matches, so the
pattern is folded with its escapes in it. A folding that leaves the three special
characters to themselves does not disturb them, and what is left of an escaped
query between its two `%` are literal characters. -/
namespace Statement.Read
open Foundation

/-- An error of the database. -/
inductive PatternError where
  /-- `LIKE pattern must not end with escape character`. -/
  | trailingEscape
  deriving DecidableEq

/-- `text ILIKE pattern ESCAPE escape`: true, false, or NULL for a text that is NULL. -/
def sqlIlike (fold : Char → Char) (escape : Char) (text : Option String) (pattern : List Char) :
    Except PatternError (Option Bool) :=
  match text with
  | none => .ok none
  | some text =>
    match LikePart.parse escape (pattern.map fold) with
    | none => .error .trailingEscape
    | some parts => .ok (some (LikePart.isMatch parts (text.toList.map fold)))

/-- The condition of `list_all` on the name. -/
def nameCondition (fold : Char → Char) (query : String) (name : Option String) :
    Except PatternError (Option Bool) :=
  sqlIlike fold '\\' name ('%' :: escaped query.toList ++ ['%'])

/-- Case folding keeps `\`, `%` and `_`, and makes them of nothing else. -/
structure FoldsCase (fold : Char → Char) : Prop where
  escape : ∀ c, fold c = '\\' ↔ c = '\\'
  percent : ∀ c, fold c = '%' ↔ c = '%'
  underscore : ∀ c, fold c = '_' ↔ c = '_'

section
variable {fold : Char → Char} (hfold : FoldsCase fold)
include hfold

/-- A character of the query comes out of escaping, folding and parsing as itself, folded. -/
theorem parse_escapeChar (c : Char) (rest : List Char) :
    LikePart.parse '\\' ((escapeChar c).map fold ++ rest) =
      (LikePart.parse '\\' rest).map (.literal (fold c) :: ·) := by
  by_cases hspecial : c = '\\' ∨ c = '%' ∨ c = '_'
  · rw [escapeChar, if_pos hspecial]
    simp only [List.map_cons, List.map_nil, List.cons_append, List.nil_append, (hfold.escape _).mpr rfl]
    exact LikePart.parse_escaped _ _
  · rw [escapeChar, if_neg hspecial]
    obtain ⟨hb, hp, hu⟩ : c ≠ '\\' ∧ c ≠ '%' ∧ c ≠ '_' := by simpa using hspecial
    rw [List.map_singleton, List.singleton_append, LikePart.parse_cons (mt (hfold.escape c).mp hb),
      LikePart.part_literal (mt (hfold.percent c).mp hp) (mt (hfold.underscore c).mp hu)]

theorem parse_escaped (query rest : List Char) :
    LikePart.parse '\\' ((escaped query).map fold ++ rest) =
      (LikePart.parse '\\' rest).map ((query.map fold).map .literal ++ ·) := by
  rw [escaped_eq]
  induction query with
  | nil => simp
  | cons c query ih =>
    rw [List.flatMap_cons, List.map_append, List.append_assoc, parse_escapeChar hfold, ih, Option.map_map]
    rfl

/-- The whole pattern: a run of any text, the query's characters, a run of any text. -/
theorem parse_pattern (query : List Char) :
    LikePart.parse '\\' (('%' :: escaped query ++ ['%']).map fold) =
      some (.anyText :: ((query.map fold).map .literal ++ [.anyText])) := by
  have hpercent : fold '%' = '%' := (hfold.percent _).mpr rfl
  simp only [List.map_append, List.map_cons, List.map_nil, List.cons_append, hpercent]
  rw [LikePart.parse_cons (by decide), parse_escaped hfold, LikePart.parse_cons (by decide)]
  rfl

theorem nameCondition_some (query name : String) :
    nameCondition fold query (some name) =
      .ok (some (LikePart.isMatch (.anyText :: ((query.toList.map fold).map .literal ++ [.anyText]))
        (name.toList.map fold))) := by
  rw [nameCondition, sqlIlike, parse_pattern hfold]

theorem nameCondition_true {query : String} {name : Option String} :
    nameCondition fold query name = .ok (some true) ↔
      ∃ n, name = some n ∧ query.toList.map fold <:+: n.toList.map fold := by
  cases name with
  | none => simp [nameCondition, sqlIlike]
  | some n =>
    rw [nameCondition_some hfold, Except.ok.injEq, Option.some.injEq, LikePart.isMatch_contains]
    simp

/-- `nameMatches` reads the pattern unfolded, which makes no difference. -/
theorem nameMatches_eq_condition (query : String) (name : Option String) :
    nameMatches fold query name = true ↔ nameCondition fold query name = .ok (some true) := by
  rw [nameCondition_true hfold]
  cases name with
  | none => simp [nameMatches]
  | some n => simp [nameMatches_iff]

/-- **The name filter is a literal substring test**, for every query and every name. -/
theorem name_filter_literal (query : String) (name : Option String) :
    (nameCondition fold query name = .ok (some true) ↔
      ∃ n, name = some n ∧ query.toList.map fold <:+: n.toList.map fold) ∧
    (name = none → nameCondition fold query name = .ok none) ∧
    ∀ e, nameCondition fold query name ≠ .error e := by
  refine ⟨nameCondition_true hfold, ?_, fun e he => ?_⟩
  · rintro rfl
    rfl
  · cases name with
    | none => cases he
    | some n =>
      rw [nameCondition_some hfold] at he
      cases he

end

/-- Outside the letters, a character is the lower case of itself alone. -/
theorem toLower_eq_iff {s : Char} (hupper : ¬ ('A' ≤ s ∧ s ≤ 'Z')) (hlower : ¬ ('a' ≤ s ∧ s ≤ 'z'))
    (c : Char) : c.toLower = s ↔ c = s := by
  simp only [Char.le_def, UInt32.le_iff_toNat_le] at hupper hlower
  unfold Char.toLower
  split
  · rename_i hc
    simp only [ge_iff_le, UInt32.le_iff_toNat_le] at hc
    refine ⟨fun he => absurd ?_ hlower, fun he => absurd (he ▸ hc) hupper⟩
    have hval := congrArg (fun x : Char => x.val.toNat) he
    simp only [UInt32.toNat_add] at hval
    have : c.val.toNat < 2 ^ 32 := c.val.toNat_lt
    simp at hc hval ⊢
    omega
  · rfl

theorem foldsCase_toLower : FoldsCase Char.toLower :=
  ⟨toLower_eq_iff (by decide) (by decide), toLower_eq_iff (by decide) (by decide),
    toLower_eq_iff (by decide) (by decide)⟩

theorem percent_found : nameCondition Char.toLower "50%_A\\" (some "x50%_a\\y") = .ok (some true) ∧
    nameCondition Char.toLower "0_" (some "50%") ≠ .ok (some true) := by
  refine ⟨(name_filter_literal foldsCase_toLower _ _).1.mpr ⟨_, rfl, by decide⟩, fun h => ?_⟩
  obtain ⟨n, hn, hinfix⟩ := (name_filter_literal foldsCase_toLower _ _).1.mp h
  cases hn
  exact absurd hinfix (by decide)

end Statement.Read
