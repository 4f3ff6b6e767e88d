import Statement.Domain.Entities
import Statement.Foundation.IntText

/-! Bearer tokens: `TokenVerifier` and the check of `get_principal`.

PyJWT is a parameter: what its two decodes answer, and the key that a JWKS client
finds for a token. A verifier keeps one client an issuer. That every client is for
its issuer's own URL, and that every issuer has prefixes and none is empty, are
fields, so no verifier breaks them. -/
namespace Statement.Auth
open Domain Foundation

inductive Json where
  | null
  | bool (value : Bool)
  | number (value : Int)
  | string (value : String)
  | array (items : List Json)
  | object (items : List (String × Json))

/-- A token's payload. -/
abbrev Claims := List (String × Json)

/-- `claims.get(name)`. -/
def Claims.get (claims : Claims) (name : String) : Option Json := claims.lookup name

/-- What a failed verification raises: an `InvalidTokenError`, or anything else. -/
inductive AuthFailure where
  | invalidToken (text : String)
  | uncaught
  deriving DecidableEq

structure Principal where
  sub : UUID
  scopes : List String
  deriving DecidableEq

def Principal.hasScope (p : Principal) (scope : String) : Bool := scope ∈ p.scopes

/-- The arguments of the second decode. -/
structure DecodeOptions where
  algorithms : List String
  issuer : String
  audience : Option String
  leeway : Nat
  verifyAud : Bool
  require : List String
  deriving DecidableEq

/-- PyJWT and what it is given from outside at a call, the clock and the network.
`signed` and `payload` say what a token is. -/
structure Pyjwt (Token Key I : Type) where
  signed : Token → Key → Prop
  payload : Token → Claims
  unverified : Token → Except AuthFailure Claims
  decode : I → Token → Key → DecodeOptions → Except AuthFailure Claims
  /-- `PyJWKClient(url).get_signing_key_from_jwt(token).key`. -/
  signingKey : I → String → Token → Except AuthFailure Key

/-- A decode with a key and an issuer answers the payload of a token that the key
has signed and that names the issuer. -/
def Pyjwt.DecodeSound {Token Key I : Type} (P : Pyjwt Token Key I) : Prop :=
  ∀ i token key options claims, P.decode i token key options = .ok claims →
    P.signed token key ∧ claims = P.payload token ∧
      claims.get "iss" = some (.string options.issuer)

abbrev TrustedIssuers := List (String × List String)

/-- Some prefix is missing, or is empty and would match every scope. -/
def unprefixed (prefixes : List String) : Prop := prefixes = [] ∨ "" ∈ prefixes

instance (prefixes : List String) : Decidable (unprefixed prefixes) :=
  inferInstanceAs (Decidable (_ ∨ _))

def jwksUrl (issuer : String) : String := Text.rstrip issuer '/' ++ "/.well-known/jwks.json"

structure TokenVerifier where
  trustedIssuers : TrustedIssuers
  audience : Option String
  /-- The clients by their issuers; a client is known by its URL. -/
  jwksClients : List (String × String)
  prefixed : ∀ x ∈ trustedIssuers, ¬ unprefixed x.2
  own : ∀ c ∈ jwksClients, c.2 = jwksUrl c.1

namespace TokenVerifier

def algorithms : List String := ["RS256"]

def leeway : Nat := 15

/-- The constructor; a `ValueError` names the issuer. -/
def make (trustedIssuers : TrustedIssuers) (audience : Option String) : Except String TokenVerifier :=
  match hbad : trustedIssuers.find? fun x => unprefixed x.2 with
  | some x => .error ("Issuer " ++ x.1 ++ " needs non-empty scope prefixes")
  | none =>
    .ok { trustedIssuers, audience, jwksClients := []
          prefixed := fun x hx => by simpa using List.find?_eq_none.mp hbad x hx
          own := fun _ hc => nomatch hc }

/-- `self._trusted_issuers[issuer]`. -/
def prefixes (v : TokenVerifier) (issuer : String) : Option (List String) :=
  v.trustedIssuers.lookup issuer

/-- The verifier with a client for the issuer. -/
def addClient (v : TokenVerifier) (issuer : String) : TokenVerifier :=
  { v with
    jwksClients := (issuer, jwksUrl issuer) :: v.jwksClients
    own := fun c hc => by
      rcases List.mem_cons.mp hc with rfl | hc
      · rfl
      · exact v.own c hc }

section
variable {Token Key I : Type} (P : Pyjwt Token Key I) (i : I) (v : TokenVerifier) (token : Token)

/-- `_signing_key`, and the verifier with the client it has made. -/
def signingKey (issuer : String) : Except AuthFailure Key × TokenVerifier :=
  match v.jwksClients.lookup issuer with
  | some client => (P.signingKey i client token, v)
  | none => (P.signingKey i (jwksUrl issuer) token, v.addClient issuer)

def unverifiedIssuer : Except AuthFailure String :=
  match P.unverified token with
  | .error f => .error f
  | .ok claims =>
    match claims.get "iss" with
    | some (.string issuer) => .ok issuer
    | _ => .error (.invalidToken "Token is missing the iss claim")

/-- `UUID(text)`: braces, hyphens and a URN prefix are dropped, and 32 characters must
be left that `int` reads as a hexadecimal number of 128 bits. -/
def parseUuid (text : String) : Option UUID :=
  let hex := Text.remove ['-'] 0 (Text.strip ['{', '}']
    (Text.remove "uuid:".toList 0 (Text.remove "urn:".toList 0 text.toList)))
  if hex.length = 32 then
    match Text.parseHex hex with
    | some (.ofNat n) => if h : n < 2 ^ 128 then some ⟨n, h⟩ else none
    | _ => none
  else none

def parseSub (claims : Claims) : Except AuthFailure UUID :=
  match claims.get "sub" with
  | some (.string text) =>
    match parseUuid text with
    | some sub => .ok sub
    | none => .error (.invalidToken "sub claim must be a UUID")
  -- `UUID(None)` is the `TypeError` that is caught
  | some .null => .error (.invalidToken "sub claim must be a UUID")
  -- `KeyError`, or `AttributeError` on any other value that is no text
  | _ => .error .uncaught

/-- The texts of the claim: of a list its strings, whatever else is in it. -/
def scopeTexts : Json → Option (List String)
  | .string text => some (Text.split text)
  | .array items => some (items.filterMap fun item =>
      match item with
      | .string text => some text
      | _ => none)
  | _ => none

def issuerScopes (claims : Claims) (issuer : String) : Except AuthFailure (List String) :=
  match scopeTexts ((claims.get "scopes").getD (.array [])) with
  | none => .error (.invalidToken "scopes claim must be a list or a string")
  | some texts =>
    let allowedPrefixes := (v.prefixes issuer).getD []
    .ok (texts.filter fun scope => allowedPrefixes.any fun start => Text.startsWith scope start)

def decodeOptions (issuer : String) : DecodeOptions :=
  { algorithms := algorithms, issuer, audience := v.audience, leeway := leeway
    verifyAud := v.audience.isSome, require := ["exp", "iat", "iss", "sub"] }

/-- `claims.get("token_use", "access") == "access"`. -/
def isAccess (claims : Claims) : Bool :=
  match claims.get "token_use" with
  | none => true
  | some (.string use) => use = "access"
  | some _ => false

/-- The end of `verify`, once the key is there. -/
def principal (issuer : String) (key : Key) : Except AuthFailure Principal :=
  match P.decode i token key (v.decodeOptions issuer) with
  | .error f => .error f
  | .ok claims =>
    if isAccess claims then
      match parseSub claims, v.issuerScopes claims issuer with
      | .error f, _ => .error f
      | .ok _, .error f => .error f
      | .ok sub, .ok scopes => .ok ⟨sub, scopes⟩
    else .error (.invalidToken "Only access tokens are accepted")

def verify : Except AuthFailure Principal × TokenVerifier :=
  match unverifiedIssuer P token with
  | .error f => (.error f, v)
  | .ok issuer =>
    if (v.prefixes issuer).isNone then (.error (.invalidToken ("Untrusted issuer: " ++ issuer)), v)
    else
      match v.signingKey P i token issuer with
      | (.error f, v') => (.error f, v')
      | (.ok key, v') => (v'.principal P i token issuer key, v')

end
end TokenVerifier

structure HttpError where
  status : Nat
  detail : String
  deriving DecidableEq

/-- `get_principal`, for a route that asks for `required`. -/
def getPrincipal {Token Key I : Type} (P : Pyjwt Token Key I) (i : I) (v : TokenVerifier)
    (required : List String) (credentials : Option Token) : Except HttpError Principal × TokenVerifier :=
  match credentials with
  | none => (.error ⟨401, "Not authenticated"⟩, v)
  | some token =>
    match v.verify P i token with
    | (.error (.invalidToken _), v') => (.error ⟨401, "Invalid token"⟩, v')
    | (.error .uncaught, v') => (.error ⟨500, "Internal Server Error"⟩, v')
    | (.ok principal, v') =>
      if required.all principal.hasScope then (.ok principal, v')
      else (.error ⟨403, "Insufficient permissions"⟩, v')

end Statement.Auth
