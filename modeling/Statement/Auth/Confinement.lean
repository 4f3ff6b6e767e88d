import Statement.Auth.TokenVerifier

/-! Issuers and the scopes they can assert.

What admits a request is signed by a key of the issuer that the token names, and
holds scopes with a prefix of that issuer only. A party is known by its keys. So it
is confined to the prefixes of the issuers whose JWKS URL serves one of them, and
two issuers that differ in a trailing slash have one such URL. -/
namespace Statement.Auth
open Foundation

variable {Token Key I : Type} {P : Pyjwt Token Key I}

/-- The JWKS URL of the issuer has answered the key. -/
def Serves (P : Pyjwt Token Key I) (issuer : String) (key : Key) : Prop :=
  ∃ i token, P.signingKey i (jwksUrl issuer) token = .ok key

/-- The scope is in the token's `scopes` claim, a list or a text. -/
def Occurs (claims : Claims) (scope : String) : Prop :=
  (∃ text, claims.get "scopes" = some (.string text) ∧ scope ∈ Text.split text) ∨
    ∃ items, claims.get "scopes" = some (.array items) ∧ Json.string scope ∈ items

/-- The scope starts with a prefix of the issuer, which is not empty. -/
def Asserts (trustedIssuers : TrustedIssuers) (issuer scope : String) : Prop :=
  ∃ prefixes, trustedIssuers.lookup issuer = some prefixes ∧
    ∃ start ∈ prefixes, start ≠ "" ∧ Text.startsWith scope start = true

theorem mem_of_lookup {α β : Type} [DecidableEq α] {l : List (α × β)} {a : α} {b : β}
    (h : l.lookup a = some b) : (a, b) ∈ l := by
  obtain ⟨before, rest, rfl, _⟩ := List.lookup_eq_some_iff.mp h
  exact List.mem_append_right _ List.mem_cons_self

namespace TokenVerifier
variable {v v' : TokenVerifier} {i : I} {token : Token}

/-- Whatever client is cached, the key is one of the issuer's own URL. -/
theorem signingKey_own (v : TokenVerifier) (P : Pyjwt Token Key I) (i : I) (token : Token)
    (issuer : String) : (v.signingKey P i token issuer).1 = P.signingKey i (jwksUrl issuer) token ∧
      (v.signingKey P i token issuer).2.trustedIssuers = v.trustedIssuers := by
  unfold signingKey
  cases hc : v.jwksClients.lookup issuer with
  | none => exact ⟨rfl, rfl⟩
  | some client =>
    have hown : client = jwksUrl issuer := v.own _ (mem_of_lookup hc)
    exact ⟨by rw [hown], rfl⟩

theorem verify_trustedIssuers (v : TokenVerifier) (P : Pyjwt Token Key I) (i : I) (token : Token) :
    (v.verify P i token).2.trustedIssuers = v.trustedIssuers := by
  unfold verify
  cases unverifiedIssuer P token with
  | error f => rfl
  | ok issuer =>
    simp only
    split
    · rfl
    · have hsame := (v.signingKey_own P i token issuer).2
      split <;> rename_i hkey <;> rw [hkey] at hsame <;> exact hsame

/-- The verifier after earlier tokens, accepted or not. -/
def after (P : Pyjwt Token Key I) (v : TokenVerifier) (earlier : List (I × Token)) : TokenVerifier :=
  earlier.foldl (fun v call => (v.verify P call.1 call.2).2) v

theorem after_trustedIssuers (v : TokenVerifier) (earlier : List (I × Token)) :
    (v.after P earlier).trustedIssuers = v.trustedIssuers := by
  induction earlier generalizing v with
  | nil => rfl
  | cons call earlier ih => exact (ih _).trans (v.verify_trustedIssuers P call.1 call.2)

theorem make_trustedIssuers {trustedIssuers : TrustedIssuers} {audience : Option String}
    (h : make trustedIssuers audience = .ok v) : v.trustedIssuers = trustedIssuers := by
  unfold make at h
  split at h
  · cases h
  · cases h
    rfl

theorem mem_scopeTexts {claims : Claims} {texts : List String} {scope : String}
    (h : scopeTexts ((claims.get "scopes").getD (.array [])) = some texts) (hs : scope ∈ texts) :
    Occurs claims scope := by
  cases hclaim : claims.get "scopes" with
  | none =>
    rw [hclaim] at h
    cases h
    cases hs
  | some json =>
    rw [hclaim, Option.getD_some] at h
    cases json with
    | string text =>
      cases h
      exact .inl ⟨text, hclaim, hs⟩
    | array items =>
      cases h
      obtain ⟨item, hitem, htext⟩ := List.mem_filterMap.mp hs
      cases item with
      | string text =>
        cases htext
        exact .inr ⟨items, hclaim, hitem⟩
      | null => cases htext
      | bool value => cases htext
      | number value => cases htext
      | array items => cases htext
      | object items => cases htext
    | null => cases h
    | bool value => cases h
    | number value => cases h
    | object items => cases h

/-- Scopes of the claim with a prefix of the issuer, and no others. -/
theorem issuerScopes_mem {claims : Claims} {issuer scope : String} {scopes : List String}
    (h : v.issuerScopes claims issuer = .ok scopes) (hs : scope ∈ scopes) :
    Occurs claims scope ∧ Asserts v.trustedIssuers issuer scope := by
  unfold issuerScopes at h
  split at h
  · cases h
  · rename_i texts htexts
    cases h
    obtain ⟨htext, hprefix⟩ := List.mem_filter.mp hs
    refine ⟨mem_scopeTexts htexts htext, ?_⟩
    obtain ⟨start, hstart, hmatch⟩ := List.any_eq_true.mp hprefix
    cases hprefixes : v.prefixes issuer with
    | none =>
      rw [hprefixes] at hstart
      cases hstart
    | some prefixes =>
      rw [hprefixes, Option.getD_some] at hstart
      refine ⟨prefixes, hprefixes, start, hstart, fun hempty => ?_, hmatch⟩
      exact v.prefixed _ (mem_of_lookup hprefixes) (.inr (hempty ▸ hstart))

/-- What an accepted token is: signed by a key of the issuer that it names. -/
structure Accepted (P : Pyjwt Token Key I) (v : TokenVerifier) (token : Token) (issuer : String)
    (key : Key) (p : Principal) : Prop where
  trusted : (v.prefixes issuer).isSome
  names : (P.payload token).get "iss" = some (.string issuer)
  serves : Serves P issuer key
  signed : P.signed token key
  scopes : ∀ scope ∈ p.scopes, Occurs (P.payload token) scope ∧ Asserts v.trustedIssuers issuer scope

theorem principal_ok {issuer : String} {key : Key} {p : Principal}
    (h : v.principal P i token issuer key = .ok p) : ∃ claims,
      P.decode i token key (v.decodeOptions issuer) = .ok claims ∧
        v.issuerScopes claims issuer = .ok p.scopes := by
  unfold principal at h
  split at h
  · cases h
  · rename_i claims hclaims
    refine ⟨claims, hclaims, ?_⟩
    split at h
    · split at h
      · cases h
      · cases h
      · rename_i hscopes
        cases h
        exact hscopes
    · cases h

theorem verify_ok (hdecode : P.DecodeSound) {p : Principal} (h : v.verify P i token = (.ok p, v')) :
    ∃ issuer key, Accepted P v token issuer key p := by
  unfold verify at h
  cases hissuer : unverifiedIssuer P token with
  | error f =>
    rw [hissuer] at h
    cases h
  | ok issuer =>
    rw [hissuer] at h
    simp only at h
    split at h
    · cases h
    · rename_i htrusted
      obtain ⟨hkey, hsame⟩ := v.signingKey_own P i token issuer
      split at h
      · cases h
      · rename_i key v₁ hsigning
        rw [hsigning] at hkey hsame
        obtain ⟨hp, rfl⟩ := Prod.mk.inj h
        obtain ⟨claims, hclaims, hscopes⟩ := principal_ok hp
        obtain ⟨hsigned, hpayload, hiss⟩ := hdecode _ _ _ _ _ hclaims
        refine ⟨issuer, key, Option.isSome_iff_ne_none.mpr (by simpa using htrusted), hpayload ▸ hiss,
          ⟨i, token, hkey.symm⟩, hsigned, fun scope hs => ?_⟩
        rw [← hpayload, ← show v₁.trustedIssuers = v.trustedIssuers from hsame]
        exact issuerScopes_mem hscopes hs

end TokenVerifier

/-- The request is let through only with every scope that the route asks for. -/
theorem getPrincipal_ok {v v' : TokenVerifier} {i : I} {token : Token} {required : List String}
    {p : Principal} (h : getPrincipal P i v required (some token) = (.ok p, v')) :
    v.verify P i token = (.ok p, v') ∧ ∀ scope ∈ required, scope ∈ p.scopes := by
  unfold getPrincipal at h
  simp only at h
  split at h
  · cases h
  · cases h
  · rename_i q v₁ hverify
    split at h
    · rename_i hall
      cases h
      refine ⟨hverify, fun scope hs => ?_⟩
      simpa [Principal.hasScope] using List.all_eq_true.mp hall scope hs
    · cases h

open TokenVerifier in
/-- **Issuer confinement.** A request is admitted by scopes of the issuer that has
signed its token; and a party gets no scope that neither its issuer can assert nor
one whose JWKS URL serves one of its keys. -/
theorem issuer_confinement (P : Pyjwt Token Key I) (hdecode : P.DecodeSound)
    (trustedIssuers : TrustedIssuers) (audience : Option String) (v₀ : TokenVerifier)
    (hmake : make trustedIssuers audience = .ok v₀) (earlier : List (I × Token)) (i : I) (token : Token)
    (v' : TokenVerifier) (p : Principal) :
    (∀ required, getPrincipal P i (v₀.after P earlier) required (some token) = (.ok p, v') →
      ∃ issuer key, (trustedIssuers.lookup issuer).isSome ∧
        (P.payload token).get "iss" = some (.string issuer) ∧ Serves P issuer key ∧ P.signed token key ∧
        ∀ scope ∈ required, Occurs (P.payload token) scope ∧ Asserts trustedIssuers issuer scope) ∧
    ∀ A, (∀ key, P.signed token key → Serves P A key) →
      (v₀.after P earlier).verify P i token = (.ok p, v') → ∀ scope ∈ p.scopes,
        Asserts trustedIssuers A scope ∨
          ∃ B key, B ≠ A ∧ Serves P A key ∧ Serves P B key ∧ Asserts trustedIssuers B scope := by
  have htrusted : (v₀.after P earlier).trustedIssuers = trustedIssuers :=
    (v₀.after_trustedIssuers earlier).trans (make_trustedIssuers hmake)
  constructor
  · intro required h
    obtain ⟨hverify, hrequired⟩ := getPrincipal_ok h
    obtain ⟨issuer, key, haccepted⟩ := verify_ok hdecode hverify
    refine ⟨issuer, key, htrusted ▸ haccepted.trusted, haccepted.names, haccepted.serves, haccepted.signed,
      fun scope hs => ?_⟩
    exact htrusted ▸ haccepted.scopes scope (hrequired scope hs)
  · intro A hkeys hverify scope hs
    obtain ⟨issuer, key, haccepted⟩ := verify_ok hdecode hverify
    have hasserts : Asserts trustedIssuers issuer scope := htrusted ▸ (haccepted.scopes scope hs).2
    by_cases hissuer : issuer = A
    · exact .inl (hissuer ▸ hasserts)
    · exact .inr ⟨issuer, key, hissuer, hkeys key haccepted.signed, haccepted.serves, hasserts⟩

/-! ### Two issuers with one JWKS URL -/

/-- A provider with one key. A token is its payload here. -/
def provider : Pyjwt Claims Nat Unit where
  signed _ key := key = 0
  payload token := token
  unverified token := .ok token
  decode _ token key options :=
    match token.get "iss" with
    | some (.string issuer) =>
      if key = 0 ∧ issuer = options.issuer then .ok token else .error (.invalidToken "Invalid issuer")
    | _ => .error (.invalidToken "Token is missing the \"iss\" claim")
  signingKey _ url _ :=
    if url = "https://idp.example/.well-known/jwks.json" then .ok 0 else .error .uncaught

theorem provider_sound : provider.DecodeSound := by
  intro i token key options claims h
  simp only [provider] at h
  split at h
  · rename_i issuer hissuer
    split at h
    · rename_i hvalid
      obtain ⟨hkey, hname⟩ := hvalid
      cases h
      exact ⟨hkey, rfl, hname ▸ hissuer⟩
    · cases h
  · cases h

/-- One issuer twice, with prefixes of its own each time. -/
def slashed : TrustedIssuers := [("https://idp.example", ["a."]), ("https://idp.example/", ["b."])]

def slashToken : Claims :=
  [("iss", .string "https://idp.example/"), ("sub", .string "00000000-0000-0000-0000-000000000001"),
    ("exp", .number 2), ("iat", .number 1), ("scopes", .string "b.write")]

theorem slashToken_signer (key : Nat) (h : provider.signed slashToken key) :
    Serves provider "https://idp.example" key := by
  obtain rfl : key = 0 := h
  exact ⟨(), [], by decide⟩

theorem ok_of_toOption {ε α : Type} {r : Except ε α} {a : α} (h : r.toOption = some a) : r = .ok a := by
  cases r with
  | error e => cases h
  | ok b =>
    cases h
    rfl

theorem slashToken_verified : ∃ v₀ v' p, TokenVerifier.make slashed none = .ok v₀ ∧
    v₀.verify provider () slashToken = (.ok p, v') ∧ p.scopes = ["b.write"] := by
  have hrun : (TokenVerifier.make slashed none).toOption.map (fun v =>
      (v.verify provider () slashToken).1.toOption.map (·.scopes)) = some (some ["b.write"]) := by decide
  obtain ⟨v₀, hmake, hverify⟩ := Option.map_eq_some_iff.mp hrun
  obtain ⟨p, hp, hscopes⟩ := Option.map_eq_some_iff.mp hverify
  refine ⟨v₀, _, p, ok_of_toOption hmake, Prod.ext (ok_of_toOption hp) rfl, hscopes⟩

/-- A party that has the key of the first issuer gets a scope of the second. -/
theorem slashed_not_confined : ∃ v₀ v' p, TokenVerifier.make slashed none = .ok v₀ ∧
    provider.DecodeSound ∧
    (∀ key, provider.signed slashToken key → Serves provider "https://idp.example" key) ∧
    v₀.verify provider () slashToken = (.ok p, v') ∧ "b.write" ∈ p.scopes ∧
    ¬ Asserts slashed "https://idp.example" "b.write" := by
  obtain ⟨v₀, v', p, hmake, hverify, hscopes⟩ := slashToken_verified
  refine ⟨v₀, v', p, hmake, provider_sound, slashToken_signer, hverify, by simp [hscopes], ?_⟩
  intro ⟨prefixes, hprefixes, start, hstart, _, hmatch⟩
  obtain rfl : ["a."] = prefixes := Option.some.inj hprefixes
  rw [List.mem_singleton.mp hstart] at hmatch
  exact absurd hmatch (by decide)

theorem slashed_confined : ∃ v₀ v' p, TokenVerifier.make slashed none = .ok v₀ ∧
    v₀.verify provider () slashToken = (.ok p, v') ∧ (Asserts slashed "https://idp.example" "b.write" ∨
      ∃ B key, B ≠ "https://idp.example" ∧ Serves provider "https://idp.example" key ∧
        Serves provider B key ∧ Asserts slashed B "b.write") := by
  obtain ⟨v₀, v', p, hmake, hverify, hscopes⟩ := slashToken_verified
  exact ⟨v₀, v', p, hmake, hverify, (issuer_confinement provider provider_sound slashed none v₀ hmake []
    () slashToken v' p).2 "https://idp.example" slashToken_signer hverify "b.write" (by simp [hscopes])⟩

end Statement.Auth
