import Estoc.DidPeer.Document

/-!
# `from_prior` tokens

A token is a compact JWT that the prior DID's key signs: `iss` is the prior DID and `sub` the
new one, or there is no `sub` and what the two had ends. It is decoded and checked for its
shape, held to every rule of the profile that needs no document, verified against the
issuer's long form, and bound to the receipt it arrived on. The JWT library and the codecs are
other packages'.
-/

set_option linter.unusedSectionVars false

namespace Estoc.FromPrior

open Json (lit member)
open Utf16 (JsString)
open Checked (refuse)
open DidPeer (Members isShortForm isLongForm longToShort splitDidUrl)
open EventStore (decimal)

abbrev Did := JsString

def FROM_PRIOR_PROFILE : JsString := lit "estoc-from-prior/1"
def FROM_PRIOR_ALG : JsString := lit "EdDSA"

/-- Why a token is not a proof. -/
inductive FromPriorFailure where
  | form
  | profile
  | binding
  | document
  | signature
deriving DecidableEq

structure InvalidFromPrior where
  message : JsString
  failure : FromPriorFailure
deriving DecidableEq

abbrev Checks (α : Type) := Except InvalidFromPrior α

def form (message : JsString) : InvalidFromPrior := ⟨message, .form⟩
def profile (message : JsString) : InvalidFromPrior := ⟨message, .profile⟩
def unbindable (message : JsString) : InvalidFromPrior := ⟨message, .binding⟩
def noDocument (message : JsString) : InvalidFromPrior := ⟨message, .document⟩

/-- What a caught error's message becomes. -/
def caught {α : Type} (become : JsString → InvalidFromPrior) : Except JsString α → Checks α
  | .ok a => .ok a
  | .error message => .error (become message)

/-- How the library refuses a signature: as one that does not verify, or otherwise. -/
inductive VerifyFailure where
  | signature
  | other (message : JsString)

/-- The packages underneath. -/
structure Packages extends DidPeer.Packages where
  base64urlnopadDecode : JsString → Option (List UInt8)
  base64urlnopadEncode : List UInt8 → JsString
  base58Decode : JsString → Option (List UInt8)
  decodeProtectedHeader : JsString → Except JsString Members
  decodeJwt : JsString → Except JsString Members
  /-- The bytes the signature covers, verified with a JWK under the one algorithm. -/
  compactVerify : JsString → (key : Members) → Except VerifyFailure (List UInt8)

/-- A DID as it was presented and the identity that spelling validates to. -/
structure DidSpelling where
  presented : Did
  canonical : Did
deriving DecidableEq

structure TokenHeader where
  alg : JsString
  typ : Option JsString
  kid : JsString
deriving DecidableEq

structure TokenClaims where
  iss : JsString
  sub : Option JsString
  aud : Option JsString
  iat : Binary64
deriving DecidableEq

structure UnverifiedFromPrior where
  header : TokenHeader
  claims : TokenClaims
deriving DecidableEq

inductive VerifiedChange where
  | rotate (successor : DidSpelling)
  | ending (audience : Option DidSpelling)
deriving DecidableEq

/-- A proof that verified, before any receipt binding. -/
structure VerifiedFromPrior where
  token : JsString
  issuer : DidSpelling
  change : VerifiedChange
  iat : Binary64
  method : JsString
deriving DecidableEq

/-- What the host established about a receipt; no sender where the envelope was anonymous. -/
structure Receipt where
  token : JsString
  recipient : Did
  sender : Option Did

inductive BoundChange where
  | rotate (recipient issuer successor : Did)
  | ending (recipient issuer : Did)
deriving DecidableEq

inductive Binding where
  | bound (change : BoundChange)
  | mismatch (because : JsString)
  | unbound (because : JsString)
deriving DecidableEq

/-- A token as it was decoded: the whole of its protected header, and its claims. -/
structure Decoded where
  members : Members
  header : TokenHeader
  claims : TokenClaims

/-! ## Spellings -/

section
variable (P : Packages)

/-- The identity a did:peer:4 spelling names, its long form checked against its hash. -/
def canonicalDid (spelling : Did) (what : JsString) : Checks DidSpelling := do
  if isShortForm spelling then pure ⟨spelling, spelling⟩
  else
    refuse (isLongForm spelling = false) (profile (what ++ lit " is a did:peer:4"))
    let _ ← caught (fun message => profile (what ++ lit " does not decode: " ++ message))
      (DidPeer.decodeLongForm P.toPackages spelling)
    let short ← caught profile (longToShort spelling)
    pure ⟨spelling, short⟩

/-- A DID URL naming a method: a spelling and one non-empty fragment. -/
def methodUrl (url what : JsString) : Checks (DidSpelling × JsString) := do
  let fragment := (url.dropWhile (· != 0x23)).drop 1
  refuse (url.contains 0x23 = false ∨ fragment.contains 0x23 = true ∨ fragment = [])
    (profile (what ++ lit " is a DID URL with one fragment"))
  let did ← canonicalDid P (url.takeWhile (· != 0x23)) (lit "the DID of " ++ what)
  pure (did, fragment)

/-! ## Decoding -/

def ED25519_SIGNATURE_BYTES : Nat := 64

def segmentBytes (segment what : JsString) : Checks (List UInt8) :=
  match P.base64urlnopadDecode segment with
  | some bytes => pure bytes
  | none => .error (form (lit "not a compact JWT: the " ++ what ++
      lit " segment is base64url without padding or whitespace"))

/-- The three segments as received. -/
def checkSegments (jwt : JsString) : Checks Unit :=
  match jwt.splitOn Json.dot with
  | [header, payload, signature] => do
    let _ ← segmentBytes P header (lit "protected header")
    let _ ← segmentBytes P payload (lit "payload")
    let bytes ← segmentBytes P signature (lit "signature")
    refuse (bytes.length ≠ ED25519_SIGNATURE_BYTES)
      (form (lit "the signature is " ++ decimal ED25519_SIGNATURE_BYTES ++ lit " bytes"))
  | _ => .error (form (lit "not a compact JWT: the token is three segments"))

end

/-- The string a member is. -/
def text? : Option Json → Option JsString
  | some (.scalar (.string s)) => some s
  | _ => none

/-- The names that `crit` lists, where it is a list of names. -/
def critNames (header : Members) : Option (List JsString) :=
  match member header (lit "crit") with
  | some (.array names) => names.mapM fun name => text? (some name)
  | _ => none

/-- `crit` is a list of names without repetition, and names `b64` exactly when that is there,
and true. -/
def checkHeaderExtensions (header : Members) : Checks Unit := do
  let crit := critNames header
  if (member header (lit "crit")).isSome then
    refuse (crit.all fun names => names.isEmpty || names.any List.isEmpty)
      (form (lit "crit, when present, is an array of non-empty strings"))
    refuse (crit.any fun names => !decide names.Nodup) (form (lit "crit lists no header twice"))
  let listed := crit.any fun names => names.contains (lit "b64")
  match member header (lit "b64") with
  | some (.scalar (.boolean true)) =>
    refuse (listed = false) (form (lit "crit lists b64 when the header has it"))
  | some _ => .error (form
      (lit "b64, when present, is true: a JWT's payload is base64url-encoded"))
  | none => refuse (listed = true) (form (lit "crit names b64 only when the header has it"))

def claimsOf (payload : Members) : Checks TokenClaims := do
  let sub := member payload (lit "sub")
  let aud := member payload (lit "aud")
  match text? (member payload (lit "iss")) with
  | none => .error (form (lit "iss is a string"))
  | some iss => do
    refuse (sub.isSome ∧ text? sub = none) (form (lit "sub, when present, is a string"))
    refuse (aud.isSome ∧ text? aud = none) (form (lit "aud, when present, is one string"))
    match member payload (lit "iat") with
    | some (.scalar (.number iat)) => do
      refuse (iat.safeInteger? = none) (form (lit "iat is an integer"))
      refuse ((member payload (lit "exp")).isSome ∨ (member payload (lit "nbf")).isSome)
        (form (lit "a from_prior has no exp or nbf; this profile evaluates no validity window"))
      pure ⟨iss, text? sub, text? aud, iat⟩
    | _ => .error (form (lit "iat is an integer"))

section
variable (P : Packages)

/-- The token's segments decoded and checked for shape. -/
def decode (jwt : JsString) : Checks Decoded := do
  checkSegments P jwt
  let notCompact := fun message => form (lit "not a compact JWT: " ++ message)
  let header ← caught notCompact (P.decodeProtectedHeader jwt)
  let payload ← caught notCompact (P.decodeJwt jwt)
  match text? (member header (lit "alg")), text? (member header (lit "kid")) with
  | none, _ => .error (form (lit "the protected header names an alg"))
  | _, none => .error (form (lit "the protected header names a kid"))
  | some alg, some kid => do
    let typ := member header (lit "typ")
    refuse (typ.isSome ∧ text? typ = none) (form (lit "typ is a string"))
    checkHeaderExtensions header
    let claims ← claimsOf payload
    pure ⟨header, ⟨alg, text? typ, kid⟩, claims⟩

def unverifiedOf (decoded : Decoded) : UnverifiedFromPrior := ⟨decoded.header, decoded.claims⟩

def inspectFromPrior (jwt : JsString) : Checks UnverifiedFromPrior := do
  let decoded ← decode P jwt
  pure (unverifiedOf decoded)

/-! ## The profile -/

/-- No letter beyond ASCII has one of these for its lower case. -/
def isJwtType (typ : Option JsString) : Bool :=
  typ.all fun typ =>
    typ.map Vault.lowered == lit "jwt" || typ.map Vault.lowered == lit "application/jwt"

def profileChange (claims : TokenClaims) (issuer : DidSpelling) : Checks VerifiedChange :=
  match claims.sub with
  | some sub => do
    let successor ← canonicalDid P sub (lit "sub")
    refuse (successor.canonical = issuer.canonical) (profile (lit "sub is another DID than iss"))
    refuse (claims.aud.isSome) (profile (lit "a rotation names no aud"))
    pure (.rotate successor)
  | none =>
    match claims.aud with
    | none => pure (.ending none)
    | some aud => do
      let audience ← canonicalDid P aud (lit "aud")
      refuse (audience.canonical = issuer.canonical)
        (profile (lit "aud is another DID than iss"))
      pure (.ending (some audience))

/-- The profile rules a decoded token meets or fails without its issuer's document. -/
def checkProfile (decoded : Decoded) : Checks (DidSpelling × VerifiedChange) := do
  refuse (decoded.header.alg ≠ FROM_PRIOR_ALG) (profile (lit "alg is " ++ FROM_PRIOR_ALG))
  refuse (isJwtType decoded.header.typ = false)
    (profile (lit "typ, when present, is JWT or application/jwt"))
  match ((critNames decoded.members).getD []).find? (· ≠ lit "b64") with
  | some name => .error (profile (lit "the critical header " ++ name ++
      lit " is not one this profile understands"))
  | none => do
    let issuer ← canonicalDid P decoded.claims.iss (lit "iss")
    let kid ← methodUrl P decoded.header.kid (lit "kid")
    refuse (kid.1.canonical ≠ issuer.canonical) (profile (lit "the kid names a key of iss"))
    let change ← profileChange P decoded.claims issuer
    pure (issuer, change)

/-- Every rule of the profile that needs no document; and, where the receipt's sender is
given, that a rotation's successor is that sender. -/
def precheckFromPrior (jwt : JsString) (authenticatedSender : Option Did) :
    Checks UnverifiedFromPrior := do
  let decoded ← decode P jwt
  let checked ← checkProfile P decoded
  match authenticatedSender, checked.2 with
  | some authenticatedSender, .rotate successor => do
    let sender ← match canonicalDid P authenticatedSender (lit "the sender") with
      | .ok sender => pure sender
      | .error e => .error (unbindable e.message)
    refuse (sender.canonical ≠ successor.canonical) (unbindable (lit "sub is " ++
      successor.presented ++ lit " but the sender is " ++ sender.presented))
    pure (unverifiedOf decoded)
  | _, _ => pure (unverifiedOf decoded)

end

end Estoc.FromPrior
