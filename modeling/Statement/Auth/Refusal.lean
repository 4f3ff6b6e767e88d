import Statement.Auth.Confinement

/-! How a request without an acceptable token is answered.

`get_principal` turns an `InvalidTokenError` into 401. The two decodes raise nothing
else, and neither do the checks of the claims. But `PyJWKClient` reports a key that
it does not find with a `PyJWKClientError`, which is no `InvalidTokenError` and
leaves the handler. -/
namespace Statement.Auth
open Foundation

variable {Token Key I : Type}

/-- What PyJWT raises, and what a decode that asks for `sub` leaves: a text. The
issuers' endpoints are reachable, so a key that is not found is all that a lookup
can raise. -/
structure Pyjwt.Documented (P : Pyjwt Token Key I) : Prop where
  unverified : ∀ token f, P.unverified token = .error f → ∃ text, f = .invalidToken text
  decode : ∀ i token key options f, P.decode i token key options = .error f →
    ∃ text, f = .invalidToken text
  subject : ∀ i token key options claims, P.decode i token key options = .ok claims →
    "sub" ∈ options.require → ∃ text, claims.get "sub" = some (.string text)
  signingKey : ∀ i url token f, P.signingKey i url token = .error f → f = .uncaught

/-- The token names a trusted issuer, whose JWKS URL has no key for it. -/
def UnknownKey (P : Pyjwt Token Key I) (i : I) (v : TokenVerifier) (token : Token) : Prop :=
  ∃ claims issuer f, P.unverified token = .ok claims ∧ claims.get "iss" = some (.string issuer) ∧
    (v.trustedIssuers.lookup issuer).isSome ∧ P.signingKey i (jwksUrl issuer) token = .error f

/-- A principal with every scope, or 401, or 403. -/
def Answered (required : List String) : Except HttpError Principal → Prop
  | .ok principal => ∀ scope ∈ required, scope ∈ principal.scopes
  | .error e => e.status = 401 ∨ e.status = 403

namespace TokenVerifier
variable {P : Pyjwt Token Key I} {i : I} {v : TokenVerifier} {token : Token}

theorem unverifiedIssuer_ok {issuer : String} (h : unverifiedIssuer P token = .ok issuer) :
    ∃ claims, P.unverified token = .ok claims ∧ claims.get "iss" = some (.string issuer) := by
  unfold unverifiedIssuer at h
  split at h
  · cases h
  · rename_i claims hclaims
    split at h
    · rename_i text htext
      cases h
      exact ⟨claims, hclaims, htext⟩
    · cases h

theorem unverifiedIssuer_error (hP : P.Documented) {f : AuthFailure}
    (h : unverifiedIssuer P token = .error f) : ∃ text, f = .invalidToken text := by
  unfold unverifiedIssuer at h
  split at h
  · rename_i f' hf'
    cases h
    exact hP.unverified token f hf'
  · split at h
    · cases h
    · cases h
      exact ⟨_, rfl⟩

/-- A `sub` that is a text is parsed or refused. -/
theorem parseSub_error {claims : Claims} {text : String} (hsub : claims.get "sub" = some (.string text))
    {f : AuthFailure} (h : parseSub claims = .error f) : ∃ text, f = .invalidToken text := by
  rw [parseSub, hsub] at h
  simp only at h
  split at h
  · cases h
  · cases h
    exact ⟨_, rfl⟩

theorem issuerScopes_error {claims : Claims} {issuer : String} {f : AuthFailure}
    (h : v.issuerScopes claims issuer = .error f) : ∃ text, f = .invalidToken text := by
  unfold issuerScopes at h
  split at h
  · cases h
    exact ⟨_, rfl⟩
  · cases h

/-- With a key, whatever is wrong with the token is an `InvalidTokenError`. -/
theorem principal_error (hP : P.Documented) {issuer : String} {key : Key} {f : AuthFailure}
    (h : v.principal P i token issuer key = .error f) : ∃ text, f = .invalidToken text := by
  unfold principal at h
  split at h
  · rename_i f' hdecode
    cases h
    exact hP.decode _ _ _ _ f hdecode
  · rename_i claims hdecode
    obtain ⟨text, hsub⟩ := hP.subject _ _ _ _ claims hdecode (by simp [decodeOptions])
    split at h
    · split at h
      · rename_i hf
        cases h
        exact parseSub_error hsub hf
      · rename_i hf
        cases h
        exact issuerScopes_error hf
      · cases h
    · cases h
      exact ⟨_, rfl⟩

/-- A verification fails with an `InvalidTokenError`, unless it meets an unknown key. -/
theorem verify_error (hP : P.Documented) (hknown : ¬ UnknownKey P i v token) {f : AuthFailure}
    {v' : TokenVerifier} (h : v.verify P i token = (.error f, v')) : ∃ text, f = .invalidToken text := by
  unfold verify at h
  cases hissuer : unverifiedIssuer P token with
  | error f' =>
    rw [hissuer] at h
    cases h
    exact unverifiedIssuer_error hP hissuer
  | ok issuer =>
    rw [hissuer] at h
    simp only at h
    split at h
    · cases h
      exact ⟨_, rfl⟩
    · rename_i htrusted
      have hkey := (v.signingKey_own P i token issuer).1
      split at h
      · rename_i f' v₁ hsigning
        rw [hsigning] at hkey
        obtain ⟨claims, hclaims, hiss⟩ := unverifiedIssuer_ok hissuer
        have hsome : (v.trustedIssuers.lookup issuer).isSome = true :=
          Option.isSome_iff_ne_none.mpr (by simpa [prefixes] using htrusted)
        exact absurd ⟨claims, issuer, f', hclaims, hiss, hsome, hkey.symm⟩ hknown
      · exact principal_error hP (Prod.mk.inj h).1

/-- An unknown key is reported by an exception that nothing catches. -/
theorem verify_unknownKey (hP : P.Documented) (h : UnknownKey P i v token) :
    (v.verify P i token).1 = .error .uncaught := by
  obtain ⟨claims, issuer, f, hclaims, hiss, htrusted, hkey⟩ := h
  have hissuer : unverifiedIssuer P token = .ok issuer := by
    rw [unverifiedIssuer, hclaims]
    simp only [hiss]
  obtain ⟨prefixes, hprefixes⟩ := Option.isSome_iff_exists.mp htrusted
  have hsigning := (v.signingKey_own P i token issuer).1
  rw [hkey, hP.signingKey i _ token f hkey] at hsigning
  rw [verify, hissuer]
  simp only [TokenVerifier.prefixes, hprefixes, Option.isNone_some, Bool.false_eq_true, if_false]
  split
  · rename_i f' v' hpair
    rw [hpair] at hsigning
    obtain rfl : f' = .uncaught := Except.error.inj hsigning
    rfl
  · rename_i key v' hpair
    rw [hpair] at hsigning
    cases hsigning

end TokenVerifier

/-- **A request is let in or refused, unless the issuer has no key for its token.** -/
theorem refused_iff (P : Pyjwt Token Key I) (hP : P.Documented) (i : I) (v : TokenVerifier)
    (required : List String) (credentials : Option Token) :
    Answered required (getPrincipal P i v required credentials).1 ↔
      ∀ token, credentials = some token → ¬ UnknownKey P i v token := by
  cases credentials with
  | none => exact ⟨fun _ token h => (nomatch h), fun _ => .inl rfl⟩
  | some token =>
    constructor
    · rintro h token' ⟨⟩ hunknown
      have hverify := TokenVerifier.verify_unknownKey hP hunknown
      rcases hresult : v.verify P i token with ⟨outcome, v'⟩
      rw [hresult] at hverify
      obtain rfl : outcome = .error .uncaught := hverify
      rw [getPrincipal] at h
      simp only [hresult, Answered] at h
      omega
    · intro hknown
      rcases hresult : v.verify P i token with ⟨outcome, v'⟩
      rw [getPrincipal]
      cases outcome with
      | error f =>
        obtain ⟨text, rfl⟩ := TokenVerifier.verify_error hP (hknown token rfl) hresult
        simp only [hresult]
        exact .inl rfl
      | ok principal =>
        simp only [hresult]
        split
        · rename_i hall
          intro scope hscope
          simpa [Principal.hasScope] using List.all_eq_true.mp hall scope hscope
        · exact .inr rfl

/-! ### A provider that rotates its key -/

/-- What a token of the provider carries: the `kid` of its header and its claims. -/
structure KeyedToken where
  kid : String
  claims : Claims

/-- The provider serves one key, under the id `k2`. -/
def rotated : Pyjwt KeyedToken Nat Unit where
  signed _ key := key = 0
  payload token := token.claims
  unverified token := .ok token.claims
  decode _ token key options :=
    match token.claims.get "iss", token.claims.get "sub" with
    | some (.string issuer), some (.string _) =>
      if key = 0 ∧ issuer = options.issuer then .ok token.claims
      else .error (.invalidToken "Invalid issuer")
    | some _, none => .error (.invalidToken "Token is missing the \"sub\" claim")
    | some _, some _ => .error (.invalidToken "Subject must be a string")
    | none, _ => .error (.invalidToken "Token is missing the \"iss\" claim")
  signingKey _ _ token := if token.kid = "k2" then .ok 0 else .error .uncaught

theorem rotated_documented : rotated.Documented where
  unverified token f h := by cases h
  decode i token key options f h := by
    simp only [rotated] at h
    split at h
    · split at h
      · cases h
      · cases h
        exact ⟨_, rfl⟩
    all_goals
      cases h
      exact ⟨_, rfl⟩
  subject i token key options claims h _ := by
    simp only [rotated] at h
    split at h
    · rename_i text _ hsub
      split at h
      · cases h
        exact ⟨_, hsub⟩
      · cases h
    all_goals cases h
  signingKey i url token f h := by
    simp only [rotated] at h
    split at h
    · cases h
    · cases h
      rfl

theorem trusting_prefixed : ∀ x ∈ [("https://idp.example", ["admin."])], ¬ unprefixed x.2 := by decide

theorem trusting_own : ∀ c ∈ ([] : List (String × String)), c.2 = jwksUrl c.1 := nofun

/-- A verifier that trusts the provider, before its first token. -/
def trusting : TokenVerifier :=
  { trustedIssuers := [("https://idp.example", ["admin."])], audience := none, jwksClients := []
    prefixed := trusting_prefixed, own := trusting_own }

/-- A token under a key id, with the scope that a route asks for. -/
def keyedToken (kid : String) : KeyedToken :=
  ⟨kid, [("iss", .string "https://idp.example"), ("sub", .string "00000000-0000-0000-0000-000000000001"),
    ("exp", .number 2), ("iat", .number 1), ("scopes", .string "admin.read")]⟩

/-- A token under the id of the key before: neither let in nor refused. -/
theorem retired_key_uncaught : rotated.Documented ∧
    ¬ Answered ["admin.read"] (getPrincipal rotated () trusting ["admin.read"] (some (keyedToken "k1"))).1 := by
  have hresult : (getPrincipal rotated () trusting ["admin.read"] (some (keyedToken "k1"))).1 =
      .error ⟨500, "Internal Server Error"⟩ := rfl
  refine ⟨rotated_documented, ?_⟩
  rw [hresult]
  rintro (h | h) <;> cases h

theorem served_key_answered :
    Answered ["admin.write"] (getPrincipal rotated () trusting ["admin.write"] (some (keyedToken "k2"))).1 := by
  refine (refused_iff rotated rotated_documented () trusting ["admin.write"] (some (keyedToken "k2"))).mpr ?_
  rintro token ⟨⟩ ⟨claims, issuer, f, _, _, _, hkey⟩
  cases hkey

end Statement.Auth
