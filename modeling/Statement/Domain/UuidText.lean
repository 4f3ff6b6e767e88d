import Statement.Domain.Entities

/-! The text of a UUID tells it from every other: its hexadecimal digits stand at
fixed places, and a number below `16 ^ 32` is known by its first 32 digits. -/
namespace Statement.Domain

theorem hexDigit_inj {m n : Nat} (hm : m < 16) (hn : n < 16) (h : hexDigit m = hexDigit n) : m = n := by
  have hall : ∀ m < 16, ∀ n < 16, hexDigit m = hexDigit n → m = n := by decide
  exact hall m hm n hn h

/-- Numbers with the same lower digits agree modulo the next power. -/
theorem mod_pow_eq_of_digits {b x y n : Nat} (h : ∀ k < n, x / b ^ k % b = y / b ^ k % b) :
    x % b ^ n = y % b ^ n := by
  induction n with
  | zero => rw [Nat.pow_zero, Nat.mod_one, Nat.mod_one]
  | succ n ih =>
    have ih := ih fun k hk => h k (Nat.lt_succ_of_lt hk)
    rw [Nat.mod_pow_succ, Nat.mod_pow_succ, ih, h n (Nat.lt_succ_self n)]

namespace UUID

@[simp] theorem length_hex (u : UUID) (i n : Nat) : (u.hex i n).length = n := by simp [hex]

theorem digit_of_hex {u v : UUID} {i n : Nat} (h : u.hex i n = v.hex i n) {k : Nat} (hi : i ≤ k)
    (hk : k < i + n) : u.val / 16 ^ (31 - k) % 16 = v.val / 16 ^ (31 - k) % 16 := by
  have hmap := List.map_inj_left.mp h (k - i) (List.mem_range.mpr (by omega))
  rw [Nat.add_sub_cancel' hi] at hmap
  exact hexDigit_inj (Nat.mod_lt _ (by decide)) (Nat.mod_lt _ (by decide)) hmap

theorem str_inj {u v : UUID} (h : u.str = v.str) : u = v := by
  have hchars := String.ofList_injective h
  simp only [List.append_assoc, List.cons_append] at hchars
  obtain ⟨h₁, hchars⟩ := List.append_inj hchars (by simp)
  obtain ⟨h₂, hchars⟩ := List.append_inj (List.cons.inj hchars).2 (by simp)
  obtain ⟨h₃, hchars⟩ := List.append_inj (List.cons.inj hchars).2 (by simp)
  obtain ⟨h₄, hchars⟩ := List.append_inj (List.cons.inj hchars).2 (by simp)
  have h₅ := (List.cons.inj hchars).2
  have hdigits : ∀ k < 32, u.val / 16 ^ k % 16 = v.val / 16 ^ k % 16 := by
    intro k hk
    have hplace : 31 - (31 - k) = k := by omega
    rw [← hplace]
    by_cases hk₁ : 31 - k < 8
    · exact digit_of_hex h₁ (Nat.zero_le _) (by omega)
    · by_cases hk₂ : 31 - k < 12
      · exact digit_of_hex h₂ (by omega) (by omega)
      · by_cases hk₃ : 31 - k < 16
        · exact digit_of_hex h₃ (by omega) (by omega)
        · by_cases hk₄ : 31 - k < 20
          · exact digit_of_hex h₄ (by omega) (by omega)
          · exact digit_of_hex h₅ (by omega) (by omega)
  have hmod := mod_pow_eq_of_digits hdigits
  have hpow : (16 : Nat) ^ 32 = 2 ^ 128 := by norm_num
  rw [hpow, Nat.mod_eq_of_lt u.isLt, Nat.mod_eq_of_lt v.isLt] at hmod
  exact Fin.ext hmod

end UUID
end Statement.Domain
