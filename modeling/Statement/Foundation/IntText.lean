import Statement.Foundation.Text

/-! `int(text, 16)`.

White space may stand around the number, a sign and `0x` before it, and single
underscores between its digits. A digit is an ASCII one or any decimal digit that
Unicode has. -/
namespace Statement.Foundation.Text

/-- The zeros of Unicode's decimal digits beyond ASCII; the other nine follow each. -/
def decimalZeros : List Nat :=
  [0x660, 0x6f0, 0x7c0, 0x966, 0x9e6, 0xa66, 0xae6, 0xb66, 0xbe6, 0xc66, 0xce6, 0xd66, 0xde6, 0xe50, 0xed0,
    0xf20, 0x1040, 0x1090, 0x17e0, 0x1810, 0x1946, 0x19d0, 0x1a80, 0x1a90, 0x1b50, 0x1bb0, 0x1c40, 0x1c50,
    0xa620, 0xa8d0, 0xa900, 0xa9d0, 0xa9f0, 0xaa50, 0xabf0, 0xff10, 0x104a0, 0x10d30, 0x10d40, 0x11066,
    0x110f0, 0x11136, 0x111d0, 0x112f0, 0x11450, 0x114d0, 0x11650, 0x116c0, 0x116d0, 0x116da, 0x11730,
    0x118e0, 0x11950, 0x11bf0, 0x11c50, 0x11d50, 0x11da0, 0x11f50, 0x16130, 0x16a60, 0x16ac0, 0x16b50,
    0x16d70, 0x1ccf0, 0x1d7ce, 0x1d7d8, 0x1d7e2, 0x1d7ec, 0x1d7f6, 0x1e140, 0x1e2f0, 0x1e4f0, 0x1e5f1,
    0x1e950, 0x1fbf0]

/-- Beyond ASCII, white space is read as a blank and a decimal digit as the ASCII one. -/
def toAscii (c : Char) : Char :=
  if c.toNat < 0x7f then c
  else if isSpace c then ' '
  else match decimalZeros.find? fun first => first ≤ c.toNat ∧ c.toNat < first + 10 with
    | some first => Char.ofNat (0x30 + (c.toNat - first))
    | none => '?'

/-- Python's separators `0x1c` to `0x1f` are none here. -/
def isAsciiSpace (c : Char) : Bool := c == ' ' || (0x09 ≤ c.toNat && c.toNat ≤ 0x0d)

def hexValue (c : Char) : Option Nat :=
  if 0x30 ≤ c.toNat ∧ c.toNat ≤ 0x39 then some (c.toNat - 0x30)
  else if 0x61 ≤ c.toNat ∧ c.toNat ≤ 0x66 then some (c.toNat - 0x57)
  else if 0x41 ≤ c.toNat ∧ c.toNat ≤ 0x46 then some (c.toNat - 0x37)
  else none

/-- The number that begins with `n` and goes on with these digits. -/
def readDigits (n : Nat) : List Char → Option Nat
  | [] => some n
  | '_' :: c :: rest => (hexValue c).bind fun d => readDigits (16 * n + d) rest
  | c :: rest =>
    match hexValue c with
    | some d => readDigits (16 * n + d) rest
    | none => if (c :: rest).all isAsciiSpace then some n else none

def readNumber : List Char → Option Nat
  | [] => none
  | c :: rest => (hexValue c).bind fun d => readDigits d rest

/-- Behind a `0x` one underscore is allowed. -/
def readUnsigned : List Char → Option Nat
  | '0' :: 'x' :: '_' :: rest | '0' :: 'X' :: '_' :: rest => readNumber rest
  | '0' :: 'x' :: rest | '0' :: 'X' :: rest => readNumber rest
  | text => readNumber text

/-- `none` is the `ValueError`. -/
def parseHex (text : List Char) : Option Int :=
  match (text.map toAscii).dropWhile isAsciiSpace with
  | '+' :: rest => (readUnsigned rest).map Int.ofNat
  | '-' :: rest => (readUnsigned rest).map fun n => -Int.ofNat n
  | rest => (readUnsigned rest).map Int.ofNat

/-! ### Plain digits -/

section
variable {c : Char} {d : Nat} (h : hexValue c = some d)
include h

theorem toNat_of_hexValue : 0x30 ≤ c.toNat ∧ c.toNat < 0x7f := by
  unfold hexValue at h
  split_ifs at h <;> omega

theorem toAscii_of_hexValue : toAscii c = c := if_pos (toNat_of_hexValue h).2

theorem isAsciiSpace_of_hexValue : isAsciiSpace c = false := by
  have hc := toNat_of_hexValue h
  have hblank : c ≠ ' ' := by
    rintro rfl
    exact absurd hc.1 (by decide)
  have hlate : ¬ c.toNat ≤ 0x0d := by omega
  simp [isAsciiSpace, hblank, hlate]

theorem ne_of_hexValue {e : Char} (he : hexValue e = none) : c ≠ e := by
  rintro rfl
  rw [h] at he
  cases he

theorem readDigits_cons (n : Nat) (rest : List Char) : readDigits n (c :: rest) = readDigits (16 * n + d) rest := by
  have hne : c ≠ '_' := ne_of_hexValue h rfl
  simp [readDigits, h, hne]

end

section
variable {α : Type} {digit : α → Char} {value : α → Nat} {l : List α}
  (h : ∀ a ∈ l, hexValue (digit a) = some (value a))
include h

theorem readDigits_map (n : Nat) :
    readDigits n (l.map digit) = some (l.foldl (fun n a => 16 * n + value a) n) := by
  induction l generalizing n with
  | nil => rfl
  | cons a l ih =>
    rw [List.map_cons, readDigits_cons (h a List.mem_cons_self), List.foldl_cons]
    exact ih (fun b hb => h b (List.mem_cons_of_mem a hb)) _

theorem readNumber_map (hl : l ≠ []) :
    readNumber (l.map digit) = some (l.foldl (fun n a => 16 * n + value a) 0) := by
  obtain ⟨a, rest, rfl⟩ := List.exists_cons_of_ne_nil hl
  rw [List.map_cons, readNumber, h a List.mem_cons_self, Option.bind_some,
    readDigits_map fun b hb => h b (List.mem_cons_of_mem a hb), List.foldl_cons, Nat.mul_zero, Nat.zero_add]

/-- No digit is the `x` of a `0x`. -/
theorem readUnsigned_map : readUnsigned (l.map digit) = readNumber (l.map digit) := by
  match l with
  | [] => rfl
  | [a] => simp [readUnsigned]
  | a :: b :: rest =>
    have hb := h b (by simp)
    have hlower : digit b ≠ 'x' := ne_of_hexValue hb rfl
    have hupper : digit b ≠ 'X' := ne_of_hexValue hb rfl
    simp [readUnsigned, hlower, hupper]

/-- Plain digits are read as the number that they write. -/
theorem parseHex_map (hl : l ≠ []) :
    parseHex (l.map digit) = some (Int.ofNat (l.foldl (fun n a => 16 * n + value a) 0)) := by
  have hascii : (l.map digit).map toAscii = l.map digit := by
    rw [List.map_map]
    exact List.map_congr_left fun a ha => toAscii_of_hexValue (h a ha)
  have hunsigned : readUnsigned (l.map digit) = some (l.foldl (fun n a => 16 * n + value a) 0) :=
    (readUnsigned_map h).trans (readNumber_map h hl)
  obtain ⟨a, rest, rfl⟩ := List.exists_cons_of_ne_nil hl
  have ha := h a List.mem_cons_self
  have hspace : ((a :: rest).map digit).dropWhile isAsciiSpace = (a :: rest).map digit := by
    rw [List.map_cons, List.dropWhile_cons_of_neg]
    simp [isAsciiSpace_of_hexValue ha]
  have hplus : digit a ≠ '+' := ne_of_hexValue ha rfl
  have hminus : digit a ≠ '-' := ne_of_hexValue ha rfl
  unfold parseHex
  rw [hascii, hspace]
  rw [List.map_cons] at hunsigned ⊢
  simp [hplus, hminus, hunsigned]

end
end Statement.Foundation.Text
