import Mathlib.Data.List.Basic

/-! Text, as Python's `str` has it: white space, splitting, stripping, prefixes.

The functions work on the characters of a string, one after another. -/
namespace Statement.Foundation.Text

/-- `str.isspace`, for one character. -/
def isSpace (c : Char) : Bool :=
  (0x09 ≤ c.toNat && c.toNat ≤ 0x0d) || (0x1c ≤ c.toNat && c.toNat ≤ 0x20) || c.toNat == 0x85 ||
    c.toNat == 0xa0 || c.toNat == 0x1680 || (0x2000 ≤ c.toNat && c.toNat ≤ 0x200a) ||
    c.toNat == 0x2028 || c.toNat == 0x2029 || c.toNat == 0x202f || c.toNat == 0x205f ||
    c.toNat == 0x3000

/-- `s.split()`: the words between runs of white space. -/
def split (s : String) : List String :=
  ((s.toList.splitOnP isSpace).filter (· ≠ [])).map String.ofList

/-- `s.rstrip(c)`. -/
def rstrip (s : String) (c : Char) : String :=
  String.ofList (s.toList.reverse.dropWhile (· = c)).reverse

/-- `s.startswith(prefix)`. -/
def startsWith (s start : String) : Bool := start.toList.isPrefixOf s.toList

/-- `s.replace(part, "")`, where `skip` characters of an occurrence are left. -/
def remove (part : List Char) : Nat → List Char → List Char
  | _, [] => []
  | skip + 1, _ :: cs => remove part skip cs
  | 0, c :: cs =>
    if part.isPrefixOf (c :: cs) then remove part (part.length - 1) cs else c :: remove part 0 cs

/-- `s.strip(chars)`. -/
def strip (chars s : List Char) : List Char :=
  ((s.dropWhile (· ∈ chars)).reverse.dropWhile (· ∈ chars)).reverse

/-- `s.partition(c)`: what comes before the first `c`, the `c` if there is one, and the
rest. -/
def partition (s : String) (c : Char) : String × String × String :=
  let before := s.toList.takeWhile (· ≠ c)
  match s.toList.dropWhile (· ≠ c) with
  | [] => (s, "", "")
  | separator :: after => (String.ofList before, String.singleton separator, String.ofList after)

/-- Put together again, the parts of a text with a separator are the text. -/
theorem partition_append {s : String} {c : Char} {before separator after : String}
    (h : partition s c = (before, separator, after)) (hsep : separator ≠ "") :
    s = before ++ String.singleton c ++ after := by
  have hsplit := List.takeWhile_append_dropWhile (p := (· ≠ c)) (l := s.toList)
  unfold partition at h
  cases hrest : s.toList.dropWhile (· ≠ c) with
  | nil =>
    rw [hrest] at h
    exact absurd (Prod.mk.inj (Prod.mk.inj h).2).1.symm hsep
  | cons d rest =>
    have hd : d = c := by
      have hne : s.toList.dropWhile (· ≠ c) ≠ [] := by
        rw [hrest]
        exact List.cons_ne_nil d rest
      have hhead := List.head_dropWhile_not (· ≠ c) hne
      simp only [hrest, List.head_cons] at hhead
      simpa using hhead
    rw [hrest] at h
    obtain ⟨rfl, hafter⟩ := Prod.mk.inj h
    obtain ⟨_, rfl⟩ := Prod.mk.inj hafter
    rw [hrest] at hsplit
    apply String.toList_injective
    calc s.toList = s.toList.takeWhile (· ≠ c) ++ d :: rest := hsplit.symm
      _ = _ := by rw [hd]; simp

end Statement.Foundation.Text
