import Statement.Auth.TokenVerifier
import Statement.Domain.UuidText

/-! A UUID is read back from its text.

`UUID(text)` takes prefixes, braces and hyphens off and reads what is left as a number.
The text that `str` writes has hyphens only, between digits that are the UUID's own. -/
namespace Statement.Foundation.Text

theorem remove_of_not_mem {c : Char} {part s : List Char} (h : c ∉ s) : remove (c :: part) 0 s = s := by
  induction s with
  | nil => rfl
  | cons d s ih =>
    have hd : c ≠ d := fun hcd => h (hcd ▸ List.mem_cons_self)
    have hprefix : (c :: part).isPrefixOf (d :: s) = false := by
      rw [List.isPrefixOf_cons_cons, beq_false_of_ne hd, Bool.false_and]
    rw [remove, hprefix, if_neg Bool.false_ne_true, ih fun hs => h (List.mem_cons_of_mem d hs)]

/-- A part of one character is removed wherever it stands. -/
theorem remove_singleton (c : Char) (s : List Char) : remove [c] 0 s = s.filter (· ≠ c) := by
  induction s with
  | nil => rfl
  | cons d s ih =>
    by_cases hd : c = d
    · subst hd
      simp [remove, ih]
    · have hd' : ¬ d = c := fun h => hd h.symm
      simp [remove, hd, hd', ih]

theorem strip_of_not_mem {chars s : List Char} (h : ∀ c ∈ s, c ∉ chars) : strip chars s = s := by
  have hdrop : ∀ l : List Char, (∀ c ∈ l, c ∉ chars) → l.dropWhile (· ∈ chars) = l := by
    intro l hl
    cases l with
    | nil => rfl
    | cons c l =>
      rw [List.dropWhile_cons_of_neg]
      simpa using hl c List.mem_cons_self
  rw [strip, hdrop s h, hdrop s.reverse fun c hc => h c (List.mem_reverse.mp hc), List.reverse_reverse]

end Statement.Foundation.Text

namespace Statement.Domain.UUID
variable (u : UUID)

theorem hex_append (i m n : Nat) : u.hex i m ++ u.hex (i + m) n = u.hex i (m + n) := by
  rw [hex, hex, hex, List.range_add, List.map_append, List.map_map]
  refine congrArg _ (List.map_congr_left fun k _ => ?_)
  rw [Function.comp_apply, Nat.add_assoc]

/-- The digits are `0`–`9` and `a`–`f`. -/
theorem mem_hex {i n : Nat} {c : Char} (h : c ∈ u.hex i n) : ∃ d < 16, c = hexDigit d := by
  obtain ⟨k, _, rfl⟩ := List.mem_map.mp h
  exact ⟨_, Nat.mod_lt _ (by decide), rfl⟩

theorem hexDigit_plain : ∀ d < 16, hexDigit d ≠ 'u' ∧ hexDigit d ≠ '-' ∧ hexDigit d ≠ '{' ∧ hexDigit d ≠ '}' := by
  decide

theorem mem_str {c : Char} (h : c ∈ u.str.toList) : c = '-' ∨ ∃ d < 16, c = hexDigit d := by
  simp only [str, String.toList_ofList, List.append_assoc, List.cons_append, List.mem_append, List.mem_cons] at h
  rcases h with h | h | h | h | h | h | h | h | h
  · exact .inr (u.mem_hex h)
  · exact .inl h
  · exact .inr (u.mem_hex h)
  · exact .inl h
  · exact .inr (u.mem_hex h)
  · exact .inl h
  · exact .inr (u.mem_hex h)
  · exact .inl h
  · exact .inr (u.mem_hex h)

/-- Without its hyphens the text is the 32 digits. -/
theorem filter_str : u.str.toList.filter (· ≠ '-') = u.hex 0 32 := by
  have hdigits : ∀ i n, (u.hex i n).filter (· ≠ '-') = u.hex i n := by
    intro i n
    apply List.filter_eq_self.mpr
    intro c hc
    obtain ⟨d, hd, rfl⟩ := u.mem_hex hc
    exact decide_eq_true (hexDigit_plain d hd).2.1
  have h := u.hex_append 0 8 4
  have h' := u.hex_append 0 12 4
  have h'' := u.hex_append 0 16 4
  have h''' := u.hex_append 0 20 12
  simp only [str, String.toList_ofList, List.filter_append, List.filter_cons, hdigits]
  simp only [Nat.zero_add] at h h' h'' h'''
  simp [h, h', h'', h''']

/-- The first `n` digits are the UUID's highest. -/
theorem foldl_digits {n : Nat} (hn : n ≤ 32) :
    ((List.range n).map fun k => u.val / 16 ^ (31 - k) % 16).foldl (fun m d => 16 * m + d) 0 =
      u.val / 16 ^ (32 - n) := by
  induction n with
  | zero =>
    have hlt : u.val < 16 ^ 32 := u.isLt
    rw [List.range_zero, List.map_nil, List.foldl_nil, Nat.sub_zero, Nat.div_eq_of_lt hlt]
  | succ n ih =>
    have hpow : 16 ^ (32 - n) = 16 ^ (31 - n) * 16 := by
      rw [← Nat.pow_succ]
      congr 1
      omega
    have hexp : 32 - (n + 1) = 31 - n := by omega
    rw [List.range_succ, List.map_append, List.foldl_append, ih (Nat.le_of_succ_le hn), hpow, hexp,
      ← Nat.div_div_eq_div_mul]
    exact Nat.div_add_mod _ _

end Statement.Domain.UUID

namespace Statement.Auth
open Domain Foundation

/-- `int` reads the 32 digits as the UUID's number. -/
theorem parseHex_hex (u : UUID) : Text.parseHex (u.hex 0 32) = some (Int.ofNat u.val) := by
  have hvalue : ∀ d < 16, Text.hexValue (hexDigit d) = some d := by decide
  have hfold := u.foldl_digits (Nat.le_refl 32)
  rw [List.foldl_map, Nat.sub_self, Nat.pow_zero, Nat.div_one] at hfold
  rw [UUID.hex, Text.parseHex_map (fun k _ => hvalue _ (Nat.mod_lt _ (by decide))) (by simp)]
  simp only [Nat.zero_add]
  rw [hfold]

/-- **`UUID(str(u))` is `u`.** -/
theorem parseUuid_str (u : UUID) : TokenVerifier.parseUuid u.str = some u := by
  have hplain : ∀ c ∈ u.str.toList, c ≠ 'u' ∧ c ≠ '{' ∧ c ≠ '}' := by
    intro c hc
    rcases u.mem_str hc with rfl | ⟨d, hd, rfl⟩
    · decide
    · have h := UUID.hexDigit_plain d hd
      exact ⟨h.1, h.2.2.1, h.2.2.2⟩
  have hu : 'u' ∉ u.str.toList := fun h => (hplain _ h).1 rfl
  have hurn : Text.remove "urn:".toList 0 u.str.toList = u.str.toList := Text.remove_of_not_mem hu
  have huuid : Text.remove "uuid:".toList 0 u.str.toList = u.str.toList := Text.remove_of_not_mem hu
  have hstrip : Text.strip ['{', '}'] u.str.toList = u.str.toList := by
    apply Text.strip_of_not_mem
    intro c hc
    simpa using (hplain c hc).2
  unfold TokenVerifier.parseUuid
  simp only [hurn, huuid, hstrip, Text.remove_singleton, u.filter_str, UUID.length_hex, if_true, parseHex_hex]
  exact dif_pos u.isLt

end Statement.Auth
