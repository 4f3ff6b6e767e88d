import Mathlib

/-! The name filter: `name ILIKE '%escaped%' ESCAPE '\'`.

`%`, `_` and the escape character of what the client sent are escaped, in an order
that escapes none of them twice, so that the pattern finds the text itself. How
case is folded is the collation's and a parameter. -/
namespace Statement.Read

/-- `str.replace` of one character. -/
def replaceChar (old : Char) (new : List Char) (s : List Char) : List Char :=
  s.flatMap fun c => if c = old then new else [c]

/-- `query.name` with its special characters escaped. -/
def escaped (name : List Char) : List Char :=
  replaceChar '_' ['\\', '_'] (replaceChar '%' ['\\', '%'] (replaceChar '\\' ['\\', '\\'] name))

/-- `text ILIKE pattern ESCAPE '\'`. -/
def ilike (lower : Char → Char) : List Char → List Char → Bool
  | [], text => text.isEmpty
  | '%' :: pattern, text => text.tails.any (ilike lower pattern)
  | '_' :: pattern, text =>
    match text with
    | [] => false
    | _ :: text => ilike lower pattern text
  | '\\' :: c :: pattern, text =>
    match text with
    | [] => false
    | x :: text => lower x = lower c && ilike lower pattern text
  | c :: pattern, text =>
    match text with
    | [] => false
    | x :: text => lower x = lower c && ilike lower pattern text

/-- A row without a name has none that matches. -/
def nameMatches (lower : Char → Char) (query : String) (name : Option String) : Bool :=
  match name with
  | none => false
  | some name => ilike lower ('%' :: escaped query.toList ++ ['%']) name.toList

/-! ### What it finds -/

/-- The three replacements at once. -/
def escapeChar (c : Char) : List Char :=
  if c = '\\' ∨ c = '%' ∨ c = '_' then ['\\', c] else [c]

theorem escaped_eq (name : List Char) : escaped name = name.flatMap escapeChar := by
  simp only [escaped, replaceChar, List.flatMap_assoc]
  refine List.flatMap_congr fun c _ => ?_
  by_cases hb : c = '\\'
  · subst hb
    rfl
  · by_cases hp : c = '%'
    · subst hp
      rfl
    · by_cases hu : c = '_'
      · subst hu
        rfl
      · simp [escapeChar, hb, hp, hu]

variable {lower : Char → Char}

/-- An escaped character matches itself, in either case. -/
theorem ilike_escapeChar (c : Char) (pattern text : List Char) :
    ilike lower (escapeChar c ++ pattern) text = true ↔
      ∃ x rest, text = x :: rest ∧ lower x = lower c ∧ ilike lower pattern rest = true := by
  have hliteral : ilike lower (escapeChar c ++ pattern) text =
      match text with
      | [] => false
      | x :: text => lower x = lower c && ilike lower pattern text := by
    by_cases h : c = '\\' ∨ c = '%' ∨ c = '_'
    · rw [escapeChar, if_pos h]
      rfl
    · rw [escapeChar, if_neg h]
      obtain ⟨hb, hp, hu⟩ : c ≠ '\\' ∧ c ≠ '%' ∧ c ≠ '_' := by simpa using h
      show ilike lower (c :: pattern) text = _
      rw [ilike.eq_def]
      split
      · rename_i heq
        cases heq
      · rename_i heq
        exact absurd (List.cons.inj heq).1 hp
      · rename_i heq
        exact absurd (List.cons.inj heq).1 hu
      · rename_i heq
        exact absurd (List.cons.inj heq).1 hb
      · rename_i heq
        obtain ⟨rfl, rfl⟩ := List.cons.inj heq
        rfl
  rw [hliteral]
  cases text with
  | nil => simp
  | cons x rest => simp

theorem ilike_percent (text : List Char) : ilike lower ['%'] text = true := by
  rw [ilike, List.any_eq_true]
  exact ⟨[], (List.mem_tails _ _).mpr List.nil_suffix, rfl⟩

/-- The escaped text and a `%` match what begins with the text. -/
theorem ilike_escaped (query text : List Char) :
    ilike lower (escaped query ++ ['%']) text = true ↔ query.map lower <+: text.map lower := by
  rw [escaped_eq]
  induction query generalizing text with
  | nil => simp [ilike_percent]
  | cons c query ih =>
    rw [List.flatMap_cons, List.append_assoc, ilike_escapeChar]
    cases text with
    | nil => simp
    | cons x rest =>
      simp only [List.map_cons, List.cons_prefix_cons, ← ih rest, List.cons.injEq]
      constructor
      · rintro ⟨y, r, ⟨rfl, rfl⟩, hlower, hrest⟩
        exact ⟨hlower.symm, hrest⟩
      · rintro ⟨hlower, hrest⟩
        exact ⟨x, rest, ⟨rfl, rfl⟩, hlower.symm, hrest⟩

/-- **The filter finds the text itself**, anywhere in the name and in either case. -/
theorem nameMatches_iff (query name : String) :
    nameMatches lower query (some name) = true ↔
      query.toList.map lower <:+: name.toList.map lower := by
  have htails : ilike lower ('%' :: escaped query.toList ++ ['%']) name.toList =
      name.toList.tails.any (ilike lower (escaped query.toList ++ ['%'])) := rfl
  rw [nameMatches, htails, List.any_eq_true]
  constructor
  · rintro ⟨text, htext, hmatch⟩
    have hsuffix := ((List.mem_tails _ _).mp htext).map lower
    exact ((ilike_escaped _ _).mp hmatch).isInfix.trans hsuffix.isInfix
  · rintro ⟨before, after, heq⟩
    refine ⟨name.toList.drop before.length, (List.mem_tails _ _).mpr (List.drop_suffix _ _), ?_⟩
    rw [ilike_escaped, List.map_drop, ← heq, List.append_assoc, List.drop_left]
    exact List.prefix_append _ _

example : nameMatches Char.toLower "50%_a" (some "x50%_Ay") = true := by decide

end Statement.Read
