import Mathlib.Data.List.Infix

/-! Patterns with two wildcards and an escape character.

A pattern is parsed once into its parts; one that ends in the escape character is
an error. Matching tries every way to give a text to the parts. `isMatch_literals`
and `isMatch_contains` say what literal parts match, alone and between two `%`. -/
namespace Statement.Foundation

inductive LikePart where
  /-- `%`. -/
  | anyText
  /-- `_`. -/
  | anyChar
  | literal (c : Char)
  deriving DecidableEq

namespace LikePart

/-- `none` is the error of a pattern that ends in the escape character. -/
def parse (escape : Char) : List Char → Option (List LikePart)
  | [] => some []
  | [c] => if c = escape then none else some [part c]
  | c :: d :: rest =>
    if c = escape then (parse escape rest).map (literal d :: ·)
    else (parse escape (d :: rest)).map (part c :: ·)
where
  part (c : Char) : LikePart := if c = '%' then anyText else if c = '_' then anyChar else literal c

def isMatch : List LikePart → List Char → Bool
  | [], text => text.isEmpty
  | anyText :: parts, text => text.tails.any (isMatch parts)
  | anyChar :: _, [] => false
  | anyChar :: parts, _ :: text => isMatch parts text
  | literal _ :: _, [] => false
  | literal c :: parts, x :: text => x = c && isMatch parts text

section
variable {escape : Char}

/-- An escaped character is itself. -/
theorem parse_escaped (c : Char) (rest : List Char) :
    parse escape (escape :: c :: rest) = (parse escape rest).map (literal c :: ·) := by
  rw [parse, if_pos rfl]

/-- Any other character stands for its part. -/
theorem parse_cons {c : Char} (hc : c ≠ escape) (rest : List Char) :
    parse escape (c :: rest) = (parse escape rest).map (parse.part c :: ·) := by
  cases rest with
  | nil => simp [parse, hc]
  | cons d rest => rw [parse, if_neg hc]

theorem part_literal {c : Char} (hp : c ≠ '%') (hu : c ≠ '_') : parse.part c = literal c := by
  rw [parse.part, if_neg hp, if_neg hu]

end

section
variable {parts : List LikePart}

theorem isMatch_anyText {text : List Char} :
    isMatch (anyText :: parts) text = true ↔
      ∃ skipped rest, text = skipped ++ rest ∧ isMatch parts rest = true := by
  rw [isMatch, List.any_eq_true]
  constructor
  · rintro ⟨rest, hrest, hmatch⟩
    obtain ⟨skipped, rfl⟩ := (List.mem_tails _ _).mp hrest
    exact ⟨skipped, rest, rfl, hmatch⟩
  · rintro ⟨skipped, rest, rfl, hmatch⟩
    exact ⟨rest, (List.mem_tails _ _).mpr (List.suffix_append _ _), hmatch⟩

/-- Literal parts match their own characters, one by one. -/
theorem isMatch_literals {cs text : List Char} :
    isMatch (cs.map literal ++ parts) text = true ↔ ∃ rest, text = cs ++ rest ∧ isMatch parts rest = true := by
  induction cs generalizing text with
  | nil => simp
  | cons c cs ih =>
    cases text with
    | nil => simp [isMatch]
    | cons x text =>
      simp only [List.map_cons, List.cons_append, isMatch, Bool.and_eq_true, decide_eq_true_eq, ih,
        List.cons.injEq]
      constructor
      · rintro ⟨rfl, rest, rfl, hmatch⟩
        exact ⟨rest, ⟨rfl, rfl⟩, hmatch⟩
      · rintro ⟨rest, ⟨rfl, rfl⟩, hmatch⟩
        exact ⟨rfl, rest, rfl, hmatch⟩

/-- Between two `%`, literal parts match the texts that contain them. -/
theorem isMatch_contains {cs text : List Char} :
    isMatch (anyText :: (cs.map literal ++ [anyText])) text = true ↔ cs <:+: text := by
  rw [isMatch_anyText]
  constructor
  · rintro ⟨skipped, rest, rfl, hmatch⟩
    obtain ⟨after, rfl, _⟩ := isMatch_literals.mp hmatch
    exact ⟨skipped, after, List.append_assoc _ _ _⟩
  · rintro ⟨skipped, after, rfl⟩
    refine ⟨skipped, cs ++ after, List.append_assoc _ _ _, isMatch_literals.mpr ⟨after, rfl, ?_⟩⟩
    exact isMatch_anyText.mpr ⟨after, [], (List.append_nil _).symm, rfl⟩

end
end LikePart
end Statement.Foundation
