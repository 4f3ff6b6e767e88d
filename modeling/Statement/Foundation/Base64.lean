import Mathlib.Data.List.Basic

/-! Base64, decoded as `base64.urlsafe_b64decode` does.

The decoder is not strict: it skips what is no digit, wherever it stands, and stops
at the padding that completes a group. What is left over at the end of the input is
an error. -/
namespace Statement.Foundation.Base64

inductive DecodeError where
  /-- One digit more than a multiple of four. -/
  | digits
  | padding
  deriving DecidableEq

/-- The six bits of a byte, with `-` and `_` translated to `+` and `/`. -/
def digit (b : UInt8) : Option Nat :=
  let c := b.toNat
  if 65 ≤ c ∧ c ≤ 90 then some (c - 65)
  else if 97 ≤ c ∧ c ≤ 122 then some (c - 71)
  else if 48 ≤ c ∧ c ≤ 57 then some (c + 4)
  else if c = 43 ∨ c = 45 then some 62
  else if c = 47 ∨ c = 95 then some 63
  else none

/-- `=`. -/
def pad : UInt8 := 61

/-- Where the decoder stands: the bytes it has written, the place in the group of four,
the bits that wait for the next digit and the padding since the last one. -/
structure Decoder where
  written : List UInt8
  quadPos : Nat
  leftover : Nat
  pads : Nat

namespace Decoder

def start : Decoder := ⟨[], 0, 0, 0⟩

/-- A digit of six bits. -/
def push (s : Decoder) (value : Nat) : Decoder :=
  match s.quadPos with
  | 0 => { s with quadPos := 1, leftover := value, pads := 0 }
  | 1 => ⟨s.written ++ [.ofNat (s.leftover * 4 + value / 16)], 2, value % 16, 0⟩
  | 2 => ⟨s.written ++ [.ofNat (s.leftover * 16 + value / 4)], 3, value % 4, 0⟩
  | _ => ⟨s.written ++ [.ofNat (s.leftover * 64 + value)], 0, 0, 0⟩

def run (s : Decoder) : List UInt8 → Except DecodeError (List UInt8)
  | [] =>
    if s.quadPos = 0 then .ok s.written
    else if s.quadPos = 1 then .error .digits
    else .error .padding
  | b :: rest =>
    if b = pad then
      if s.quadPos < 2 then run s rest
      else if 4 ≤ s.quadPos + (s.pads + 1) then .ok s.written
      else run { s with pads := s.pads + 1 } rest
    else match digit b with
      | none => run s rest
      | some value => run (s.push value) rest

end Decoder

/-- `base64.urlsafe_b64decode`. -/
def urlsafeB64decode (bytes : List UInt8) : Except DecodeError (List UInt8) := Decoder.start.run bytes

/-! ### Encoding -/

/-- The byte of six bits, `-` and `_` among them. -/
def letter (n : Nat) : UInt8 :=
  .ofNat (if n < 26 then n + 65 else if n < 52 then n + 71 else if n < 62 then n - 4
    else if n = 62 then 45 else 95)

/-- `base64.urlsafe_b64encode`. -/
def urlsafeB64encode : List UInt8 → List UInt8
  | [] => []
  | [a] => [letter (a.toNat / 4), letter (a.toNat % 4 * 16), pad, pad]
  | [a, b] =>
    [letter (a.toNat / 4), letter (a.toNat % 4 * 16 + b.toNat / 16), letter (b.toNat % 16 * 4), pad]
  | a :: b :: c :: rest =>
    letter (a.toNat / 4) :: letter (a.toNat % 4 * 16 + b.toNat / 16) ::
      letter (b.toNat % 16 * 4 + c.toNat / 64) :: letter (c.toNat % 64) :: urlsafeB64encode rest

/-- Bytes below 128 as the text that they are in UTF-8. -/
def text (bytes : List UInt8) : String := String.ofList (bytes.map fun b => Char.ofNat b.toNat)

end Statement.Foundation.Base64
