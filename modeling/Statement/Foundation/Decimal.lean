import Mathlib

/-! Rounding to significant digits.

An amount is an integer number of its smallest unit. `roundSignificant p` keeps
the `p` leading decimal digits, a tie going to the even neighbour, which is what
a decimal context of precision `p` does to the exact result of an operation. -/
namespace Statement.Foundation

/-- The unit that is left when `n` keeps `p` leading digits. -/
def roundingUnit (p n : Nat) : Nat := 10 ^ (Nat.log 10 n + 1 - p)

def roundSignificant (p : Nat) (x : Int) : Int :=
  let unit := roundingUnit p x.natAbs
  let q := x.natAbs / unit
  let r := x.natAbs % unit
  x.sign * ((if unit < 2 * r ∨ (unit = 2 * r ∧ q % 2 = 1) then q + 1 else q) * unit : Nat)

theorem roundingUnit_pos (p n : Nat) : 0 < roundingUnit p n := Nat.pow_pos (by decide)

/-- What fits in the precision is exact. -/
theorem roundSignificant_of_lt {p : Nat} {x : Int} (hp : 0 < p) (h : x.natAbs < 10 ^ p) :
    roundSignificant p x = x := by
  have hlog : Nat.log 10 x.natAbs + 1 ≤ p := by
    by_cases h0 : x.natAbs = 0
    · rw [h0, Nat.log_zero_right]
      omega
    · have := Nat.log_lt_of_lt_pow h0 h
      omega
  have hunit : roundingUnit p x.natAbs = 1 := by
    rw [roundingUnit, Nat.sub_eq_zero_of_le hlog, pow_zero]
  simp only [roundSignificant, hunit, Nat.mod_one, Nat.div_one, Nat.mul_one]
  simpa using Int.sign_mul_natAbs x

/-- What does not fit stays too large to fit. -/
theorem le_roundSignificant {p : Nat} {x : Int} (hp : 0 < p) (h : 10 ^ p ≤ x.natAbs) :
    10 ^ p ≤ (roundSignificant p x).natAbs := by
  have h0 : x.natAbs ≠ 0 := by
    have : 0 < 10 ^ p := Nat.pow_pos (by decide)
    omega
  have hlog : p ≤ Nat.log 10 x.natAbs := Nat.le_log_of_pow_le (by decide) h
  have hdvd : roundingUnit p x.natAbs ∣ 10 ^ p * 10 ^ (Nat.log 10 x.natAbs - p) := by
    rw [← pow_add, roundingUnit]
    exact pow_dvd_pow 10 (by omega)
  have hsplit : 10 ^ (Nat.log 10 x.natAbs) = 10 ^ p * 10 ^ (Nat.log 10 x.natAbs - p) := by
    rw [← pow_add, Nat.add_sub_cancel' hlog]
  -- the leading power of ten is a multiple of the unit, so truncating keeps it
  have htrunc : 10 ^ (Nat.log 10 x.natAbs) ≤
      x.natAbs / roundingUnit p x.natAbs * roundingUnit p x.natAbs := by
    obtain ⟨k, hk⟩ := hdvd
    have hle : roundingUnit p x.natAbs * k ≤ x.natAbs := by
      rw [← hk, ← hsplit]
      exact Nat.pow_log_le_self 10 h0
    rw [hsplit, hk, mul_comm]
    refine Nat.mul_le_mul_right _ ((Nat.le_div_iff_mul_le (roundingUnit_pos _ _)).mpr ?_)
    rwa [mul_comm]
  have hround : x.natAbs / roundingUnit p x.natAbs * roundingUnit p x.natAbs ≤
      (roundSignificant p x).natAbs := by
    have hsign : x.sign.natAbs = 1 := by
      rw [Int.natAbs_sign]
      simpa using h0
    simp only [roundSignificant, Int.natAbs_mul, hsign, Int.natAbs_natCast, one_mul]
    refine Nat.mul_le_mul_right _ ?_
    split <;> omega
  calc 10 ^ p ≤ 10 ^ (Nat.log 10 x.natAbs) := Nat.pow_le_pow_right (by decide) hlog
    _ ≤ _ := htrunc.trans hround

/-- A result that fits in the precision was not rounded. -/
theorem roundSignificant_eq {p : Nat} {x : Int} (hp : 0 < p)
    (h : (roundSignificant p x).natAbs < 10 ^ p) : roundSignificant p x = x := by
  by_cases hx : x.natAbs < 10 ^ p
  · exact roundSignificant_of_lt hp hx
  · exact absurd h (Nat.not_lt.mpr (le_roundSignificant hp (Nat.not_lt.mp hx)))

end Statement.Foundation
