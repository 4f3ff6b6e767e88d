import Statement.Domain.UuidText
import Statement.Account.VersionToken

/-! The text of a token tells the account and the version it was issued for.

A UUID's text has a fixed length, so a message splits at its colon, and a number
below `2 ^ 128` is known by 22 digits of six bits. What is left is the digest
itself: two messages that it does not confuse have different tokens. -/
namespace Statement.Account.VersionToken
open Domain

theorem base64Digit_inj {m n : Nat} (hm : m < 64) (hn : n < 64) (h : base64Digit m = base64Digit n) :
    m = n := by
  have hcode : ∀ k < 64, (base64Digit k).toNat = if k < 26 then 65 + k else if k < 52 then 71 + k
      else if k < 62 then k - 4 else if k = 62 then 45 else 95 := by decide
  have htext := congrArg Char.toNat h
  rw [hcode m hm, hcode n hn] at htext
  split_ifs at htext <;> omega

theorem encode_inj {x y : Fin (2 ^ 128)} (h : encode x = encode y) : x = y := by
  have hdigits : ∀ k < 22, x.val * 16 / 64 ^ k % 64 = y.val * 16 / 64 ^ k % 64 := by
    intro k hk
    have hmap := List.map_inj_left.mp (String.ofList_injective h) (21 - k) (List.mem_range.mpr (by omega))
    rw [show 21 - (21 - k) = k by omega] at hmap
    exact base64Digit_inj (Nat.mod_lt _ (by decide)) (Nat.mod_lt _ (by decide)) hmap
  have hmod := mod_pow_eq_of_digits hdigits
  have hpow : (64 : Nat) ^ 22 = 2 ^ 128 * 16 := by norm_num
  have hx := x.isLt
  have hy := y.isLt
  rw [hpow, Nat.mod_eq_of_lt (by omega), Nat.mod_eq_of_lt (by omega)] at hmod
  exact Fin.ext (by omega)

theorem message_inj {id id' : UUID} {v v' : Nat} (h : message id v = message id' v') :
    id = id' ∧ v = v' := by
  have hlength : id.str.toList.length = id'.str.toList.length := by simp [UUID.str]
  have hlist := congrArg String.toList h
  simp only [message, String.toList_append, List.append_assoc] at hlist
  obtain ⟨hid, hrest⟩ := List.append_inj hlist hlength
  refine ⟨UUID.str_inj (String.toList_injective hid), ?_⟩
  exact Nat.repr_injective (String.toList_injective (List.append_cancel_left hrest))

/-- The check answers for every ASCII text, and for no other. -/
theorem verify_cases (mac : Digest) (id : UUID) (v : Nat) (token : String) :
    (token.toList.all (fun c => c.toNat < 128) = true ∧
        verify mac id v token = some (issue mac id v == token)) ∨
      (token.toList.all (fun c => c.toNat < 128) = false ∧ verify mac id v token = none) := by
  cases hascii : token.toList.all fun c => c.toNat < 128 with
  | true => exact .inl ⟨rfl, if_pos hascii⟩
  | false => exact .inr ⟨rfl, if_neg (by rw [hascii]; exact Bool.false_ne_true)⟩

/-- A token passes for what it was issued for, and for nothing else that the digest
tells from it. -/
theorem verify_issue_iff {mac : Digest} {M : Set String} (hmac : Set.InjOn mac M) {id id' : UUID}
    {v v' : Nat} (hm : message id v ∈ M) (hm' : message id' v' ∈ M) :
    verify mac id v (issue mac id' v') = some true ↔ id' = id ∧ v' = v := by
  constructor
  · intro h
    have hmessage := hmac hm' hm (encode_inj (verify_true mac h))
    exact message_inj hmessage
  · rintro ⟨rfl, rfl⟩
    exact verify_issue mac id' v'

end Statement.Account.VersionToken
