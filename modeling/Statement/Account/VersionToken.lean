import Statement.Domain.Entities

/-! Opaque, tamper-evident tokens for an account's optimistic-lock version.

The digest is a parameter: the first 16 bytes of an HMAC-SHA256 under the
configured secret, as a number. A token is its URL-safe base64 without padding,
22 digits of six bits for 128 bits. Comparing a token is partial:
`hmac.compare_digest` takes text only if all of it is ASCII. -/
namespace Statement.Account.VersionToken
open Domain

/-- Keyed digest of a message, truncated to 16 bytes. -/
abbrev Digest := String → Fin (2 ^ 128)

/-- `A`–`Z`, `a`–`z`, `0`–`9`, `-`, `_`. -/
def base64Digit (n : Nat) : Char :=
  Char.ofNat (if n < 26 then 65 + n else if n < 52 then 71 + n else if n < 62 then n - 4
    else if n = 62 then 45 else 95)

/-- `urlsafe_b64encode(digest).rstrip("=")` of 16 bytes. -/
def encode (digest : Fin (2 ^ 128)) : String :=
  String.ofList ((List.range 22).map fun k => base64Digit (digest.val * 16 / 64 ^ (21 - k) % 64))

/-- Every token is exactly this long. -/
def tokenLength : Nat := (encode 0).length

variable (mac : Digest)

def message (entityId : UUID) (version : Nat) : String := entityId.str ++ ":" ++ toString version

def issue (entityId : UUID) (version : Nat) : String := encode (mac (message entityId version))

/-- `none` is the `TypeError` of a text that is not ASCII. -/
def verify (entityId : UUID) (version : Nat) (token : String) : Option Bool :=
  if token.toList.all fun c => c.toNat < 128 then some (issue mac entityId version == token) else none

theorem length_encode (digest : Fin (2 ^ 128)) : (encode digest).length = 22 := by
  simp [encode]

theorem tokenLength_eq : tokenLength = 22 := length_encode 0

theorem length_issue (entityId : UUID) (version : Nat) :
    (issue mac entityId version).length = tokenLength := by
  rw [issue, length_encode, tokenLength_eq]

/-- A token that passes is the one issued for this entity at this version. -/
theorem verify_true {entityId : UUID} {version : Nat} {token : String}
    (h : verify mac entityId version token = some true) : token = issue mac entityId version := by
  unfold verify at h
  split at h
  · have := Option.some.inj h
    simpa using (beq_iff_eq.mp this).symm
  · cases h

theorem base64Digit_ascii (n : Nat) : (base64Digit n).toNat < 128 := by
  have hcode : (if n < 26 then 65 + n else if n < 52 then 71 + n else if n < 62 then n - 4
      else if n = 62 then 45 else 95) < 128 := by
    split_ifs <;> omega
  unfold base64Digit
  generalize (if n < 26 then 65 + n else if n < 52 then 71 + n else if n < 62 then n - 4
      else if n = 62 then 45 else 95) = code at hcode ⊢
  rw [Char.toNat_ofNat]
  split <;> omega

theorem ascii_issue (entityId : UUID) (version : Nat) :
    (issue mac entityId version).toList.all (fun c => c.toNat < 128) = true := by
  simp only [issue, encode, String.toList_ofList, List.all_map, List.all_eq_true]
  intro k _
  simpa using base64Digit_ascii _

theorem verify_issue (entityId : UUID) (version : Nat) :
    verify mac entityId version (issue mac entityId version) = some true := by
  simp [verify, ascii_issue]

end Statement.Account.VersionToken
