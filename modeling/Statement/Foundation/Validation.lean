import Mathlib.Data.List.Basic

/-! Validation that collects errors.

A validation ends with a value, with the errors of everything that was refused, or
in an exception that is not its own and that leaves it at once. `both` and `all` run
validations side by side: a value needs a value of each, and whatever escapes one of
them escapes the whole. -/
namespace Statement.Foundation

inductive Validation (ε ω α : Type) where
  | valid (a : α)
  | invalid (errors : List ε)
  | escaped (e : ω)

/-- Mapping a list fails where one of its items does. -/
theorem mapM_cases {ε α β : Type} {f : α → Except ε β} (l : List α) :
    (∃ e, l.mapM f = .error e ∧ ∃ a ∈ l, f a = .error e) ∨
      ∃ bs, l.mapM f = .ok bs ∧ List.Forall₂ (fun a b => f a = .ok b) l bs := by
  induction l with
  | nil => exact .inr ⟨[], rfl, .nil⟩
  | cons a l ih =>
    rw [List.mapM_cons]
    cases hb : f a with
    | error e => exact .inl ⟨e, rfl, a, List.mem_cons_self, hb⟩
    | ok b =>
      rcases ih with ⟨e, he, x, hx, hxe⟩ | ⟨bs, hbs, hall⟩
      · exact .inl ⟨e, by rw [he]; rfl, x, List.mem_cons_of_mem a hx, hxe⟩
      · exact .inr ⟨b :: bs, by rw [hbs]; rfl, .cons hb hall⟩

namespace Validation
variable {ε ω α β : Type}

/-- A validator's exception is an error of the validation, if it is of a kind that
`refuses`. -/
def ofExcept (refuses : ω → Bool) (error : ω → ε) : Except ω α → Validation ε ω α
  | .ok a => valid a
  | .error e => if refuses e then invalid [error e] else escaped e

def map (f : α → β) : Validation ε ω α → Validation ε ω β
  | valid a => valid (f a)
  | invalid errors => invalid errors
  | escaped e => escaped e

/-- What is only tried with a value. -/
def bind (x : Validation ε ω α) (f : α → Validation ε ω β) : Validation ε ω β :=
  match x with
  | valid a => f a
  | invalid errors => invalid errors
  | escaped e => escaped e

def both : Validation ε ω α → Validation ε ω β → Validation ε ω (α × β)
  | escaped e, _ => escaped e
  | _, escaped e => escaped e
  | valid a, valid b => valid (a, b)
  | valid _, invalid errors => invalid errors
  | invalid errors, valid _ => invalid errors
  | invalid errors, invalid more => invalid (errors ++ more)

def all : List (Validation ε ω α) → Validation ε ω (List α)
  | [] => valid []
  | x :: xs => (both x (all xs)).map fun (a, as) => a :: as

def Escapes (x : Validation ε ω α) : Prop := ∃ e, x = escaped e

section
variable {x : Validation ε ω α} {y : Validation ε ω β}

@[simp] theorem not_escapes_valid (a : α) : ¬ (valid a : Validation ε ω α).Escapes := fun ⟨_, h⟩ => nomatch h

@[simp] theorem not_escapes_invalid (errors : List ε) : ¬ (invalid errors : Validation ε ω α).Escapes :=
  fun ⟨_, h⟩ => nomatch h

/-- Only exceptions that are not refused escape. -/
theorem ofExcept_escapes {refuses : ω → Bool} {error : ω → ε} {r : Except ω α} :
    (ofExcept refuses error r).Escapes ↔ ∃ e, r = .error e ∧ refuses e = false := by
  cases r with
  | ok a => simp [ofExcept]
  | error e =>
    cases h : refuses e with
    | true => simp [ofExcept, h]
    | false => simp [ofExcept, h, Escapes]

@[simp] theorem ofExcept_valid {refuses : ω → Bool} {error : ω → ε} {r : Except ω α} {a : α} :
    ofExcept refuses error r = valid a ↔ r = .ok a := by
  cases r with
  | ok b => simp [ofExcept]
  | error e =>
    cases h : refuses e <;> simp [ofExcept, h]

@[simp] theorem map_escapes {f : α → β} : (x.map f).Escapes ↔ x.Escapes := by
  cases x <;> simp [map, Escapes]

@[simp] theorem map_valid {f : α → β} {b : β} : x.map f = valid b ↔ ∃ a, x = valid a ∧ f a = b := by
  cases x <;> simp [map]

theorem bind_escapes {f : α → Validation ε ω β} :
    (x.bind f).Escapes ↔ x.Escapes ∨ ∃ a, x = valid a ∧ (f a).Escapes := by
  cases x <;> simp [bind, Escapes]

theorem bind_valid {f : α → Validation ε ω β} {b : β} :
    x.bind f = valid b ↔ ∃ a, x = valid a ∧ f a = valid b := by
  cases x <;> simp [bind]

theorem both_escapes : (both x y).Escapes ↔ x.Escapes ∨ y.Escapes := by
  cases x <;> cases y <;> simp [both, Escapes]

@[simp] theorem both_valid {a : α} {b : β} : both x y = valid (a, b) ↔ x = valid a ∧ y = valid b := by
  cases x <;> cases y <;> simp [both]

end

theorem all_escapes {xs : List (Validation ε ω α)} : (all xs).Escapes ↔ ∃ x ∈ xs, x.Escapes := by
  induction xs with
  | nil => simp [all]
  | cons x xs ih => simp [all, both_escapes, ih]

/-- A list is valid when each of its items is, in their order. -/
theorem all_valid {xs : List (Validation ε ω α)} {as : List α} :
    all xs = valid as ↔ xs = as.map valid := by
  induction xs generalizing as with
  | nil => cases as <;> simp [all]
  | cons x xs ih =>
    rw [all, map_valid]
    constructor
    · rintro ⟨⟨a, rest⟩, hboth, rfl⟩
      obtain ⟨rfl, hrest⟩ := both_valid.mp hboth
      rw [ih.mp hrest]
      rfl
    · intro h
      cases as with
      | nil => cases h
      | cons a rest =>
        obtain ⟨rfl, hrest⟩ := List.cons.inj h
        exact ⟨(a, rest), both_valid.mpr ⟨rfl, ih.mpr hrest⟩, rfl⟩

end Validation
end Statement.Foundation
