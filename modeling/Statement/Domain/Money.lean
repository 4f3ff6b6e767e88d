import Statement.Foundation.Decimal

/-! Money on its way from an event to a column.

Every amount has at most two fractional digits, so it is an integer number of
hundredths. A Python `Decimal` is unbounded, an `Int` here, and an operation on
it rounds to the 28 significant digits of the default context; a `Numeric` is what a column of type
`NUMERIC(16, 2)` can hold, and storing fails outside its range. -/
namespace Statement.Domain
open Foundation

namespace Decimal

/-- The precision of the default context. -/
def precision : Nat := 28

def add (a b : Int) : Int := roundSignificant precision (a + b)

def mul (a n : Int) : Int := roundSignificant precision (a * n)

end Decimal

/-- `NUMERIC(16, 2)`: less than `10 ^ 14` in absolute value. -/
structure Numeric where
  cents : Int
  inRange : cents.natAbs < 10 ^ 16
  deriving DecidableEq

namespace Numeric

theorem ext {a b : Numeric} (h : a.cents = b.cents) : a = b := by
  cases a
  cases b
  cases h
  rfl

def zero : Numeric := ⟨0, by decide⟩

@[simp] theorem zero_cents : zero.cents = 0 := rfl

/-- A value on its way into the column: `none` is the numeric field overflow. -/
def store (d : Int) : Option Numeric :=
  if h : d.natAbs < 10 ^ 16 then some ⟨d, h⟩ else none

theorem store_some {d : Int} {n : Numeric} : store d = some n ↔ n.cents = d := by
  unfold store
  split
  · rename_i h
    rw [Option.some.injEq]
    exact ⟨fun he => he ▸ rfl, fun he => ext he.symm⟩
  · rename_i h
    refine ⟨fun he => (nomatch he), fun he => absurd (he ▸ n.inRange) h⟩

theorem store_none {d : Int} : store d = none ↔ 10 ^ 16 ≤ d.natAbs := by
  unfold store
  split
  · rename_i h
    exact ⟨fun he => (nomatch he), fun hle => absurd h (Nat.not_lt.mpr hle)⟩
  · rename_i h
    exact ⟨fun _ => Nat.not_lt.mp h, fun _ => rfl⟩

/-- The sum of two stored amounts is computed exactly. -/
theorem add_exact (a b : Numeric) : Decimal.add a.cents b.cents = a.cents + b.cents := by
  refine roundSignificant_of_lt (by decide) ?_
  have ha := a.inRange
  have hb := b.inRange
  have : (10 : Nat) ^ Decimal.precision = 10 ^ 28 := rfl
  omega

end Numeric

/-- A product that a column accepts was not rounded. -/
theorem Decimal.mul_exact {a k : Int} {n : Numeric}
    (h : Numeric.store (Decimal.mul a k) = some n) : Decimal.mul a k = a * k := by
  refine roundSignificant_eq (by decide) ?_
  have hn := n.inRange
  rw [Numeric.store_some.mp h] at hn
  exact hn.trans (by decide)

end Statement.Domain
