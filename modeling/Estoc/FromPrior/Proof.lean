import Estoc.FromPrior.Token

/-!
# Verifying and binding a `from_prior` proof

The protected `kid` names an authentication method of the document the issuer's long form
encodes, that method's Ed25519 key verifies the token, and the claims the signature covers,
read again from the bytes that were verified, meet the profile. A proof binds to the receipt
that carried it: a rotation to the successor it came from, an ending to the audience it names.
-/

set_option linter.unusedSectionVars false

namespace Estoc.FromPrior

open Json (lit member)
open Utf16 (JsString)
open Checked (refuse)
open DidPeer (Members isLongForm longToShort splitDidUrl)

def ED25519_MULTICODEC : List UInt8 := [0xed, 0x01]
def ED25519_KEY_BYTES : Nat := 32

section
variable (P : Packages)

/-- The claims a verified signature covers. -/
def verifiedClaims (payload : List UInt8) : Checks TokenClaims :=
  match Json.parse P.numbers (TextDecoder.decode payload) with
  | none => .error (form (lit "the payload is JSON"))
  | some (.object parsed) => claimsOf parsed
  | some _ => .error (form (lit "the payload is an object"))

/-! ## The issuer's key -/

def textJson (s : JsString) : Json := .scalar (.string s)

/-- The key of a method that spells it in multibase. -/
def multibaseJwk (multibase id : JsString) : Checks Members := do
  refuse (multibase.head? ≠ some 0x7A) (noDocument (id ++ lit ": publicKeyMultibase is base58btc"))
  match P.base58Decode (multibase.drop 1) with
  | none => .error (noDocument (id ++ lit ": publicKeyMultibase is base58btc"))
  | some bytes => do
    refuse (bytes.length ≠ ED25519_MULTICODEC.length + ED25519_KEY_BYTES ∨
      bytes.take 2 ≠ ED25519_MULTICODEC) (noDocument (id ++ lit " is not an Ed25519 key"))
    pure [(lit "kty", textJson (lit "OKP")), (lit "crv", textJson (lit "Ed25519")),
      (lit "x", textJson (P.base64urlnopadEncode (bytes.drop 2)))]

/-- The key of a method that has it as a JWK, passed whole. -/
def checkedJwk (jwk : Members) (id : JsString) : Checks Members :=
  match text? (member jwk (lit "x")) with
  | none => .error (noDocument (id ++ lit " is not an Ed25519 key"))
  | some x => do
    refuse (text? (member jwk (lit "kty")) ≠ some (lit "OKP") ∨
      text? (member jwk (lit "crv")) ≠ some (lit "Ed25519"))
      (noDocument (id ++ lit " is not an Ed25519 key"))
    match P.base64urlnopadDecode x with
    | none => .error (noDocument
        (id ++ lit ": publicKeyJwk x is base64url without padding or whitespace"))
    | some bytes => do
      refuse (bytes.length ≠ ED25519_KEY_BYTES) (noDocument (id ++ lit " is not an Ed25519 key"))
      pure jwk

/-- The method's key as the JWK the library verifies with. -/
def ed25519Jwk (method : Members) (id : JsString) : Checks Members :=
  match member method (lit "publicKeyMultibase"), member method (lit "publicKeyJwk") with
  | some (.scalar (.string multibase)), none => multibaseJwk P multibase id
  | none, some (.object jwk) => checkedJwk P jwk id
  | _, _ => .error (noDocument (id ++ lit " carries one of publicKeyMultibase and publicKeyJwk"))

/-- The issuer's document, resolved from the long form the host retained. -/
def issuerDocument (longForm : Did) (issuer : DidSpelling) : Checks Members := do
  refuse (isLongForm longForm = false)
    (noDocument (lit "the issuer's material is a long-form did:peer:4"))
  let document ← caught
    (fun message => noDocument (lit "the issuer's long form does not resolve: " ++ message))
    (DidPeer.resolveLongForm P.toPackages longForm)
  let short ← caught noDocument (longToShort longForm)
  refuse (short ≠ issuer.canonical) (noDocument (lit "the long form is " ++ longForm ++
    lit "'s, not " ++ issuer.presented ++ lit "'s"))
  pure document

structure Method where
  id : JsString
  key : Members

/-- A method's ID names the target: its DID in either form, its fragment exactly. -/
def named (target : DidSpelling × JsString) (id : JsString) : Bool :=
  (splitDidUrl id).2 == 0x23 :: target.2 &&
    match canonicalDid P (splitDidUrl id).1 (lit "a method id") with
    | .ok did => did.canonical == target.1.canonical
    | .error _ => false

/-- The authentication method of the issuer's document that `kid` names. -/
def authenticationMethod (documentId : Did) (document : Members) (kid : JsString) :
    Checks Method := do
  let target ← methodUrl P kid (lit "kid")
  let ids ← caught noDocument
    (DidPeer.authorizedMethodIds P.toPackages document (lit "authentication"))
  match ids.find? (named P target) with
  | none => .error (noDocument (kid ++ lit " is not an authentication method of " ++ documentId))
  | some id => do
    let method ← caught noDocument (DidPeer.definedMethod P.toPackages document id)
    let key ← ed25519Jwk P method id
    pure ⟨kid, key⟩

/-! ## Verifying -/

def verifyFromPrior (jwt : JsString) (issuerLongForm : Did) : Checks VerifiedFromPrior := do
  let decoded ← decode P jwt
  let checked ← checkProfile P decoded
  let document ← issuerDocument P issuerLongForm checked.1
  let method ← authenticationMethod P issuerLongForm document decoded.header.kid
  match P.compactVerify jwt method.key with
  | .error .signature =>
    .error ⟨lit "the signature does not verify under " ++ method.id, .signature⟩
  | .error (.other message) => .error (noDocument (method.id ++
      lit " is not a public Ed25519 key that verifies " ++ FROM_PRIOR_ALG ++ lit ": " ++ message))
  | .ok payload => do
    let claims ← verifiedClaims P payload
    let signedIssuer ← canonicalDid P claims.iss (lit "iss")
    let change ← profileChange P claims signedIssuer
    pure ⟨jwt, signedIssuer, change, claims.iat, method.id⟩

/-! ## Binding -/

/-- The sender of a receipt, where it has one. -/
def receiptSender (sender : Option Did) : Checks (Option DidSpelling) :=
  match sender with
  | none => pure none
  | some sender => do
    let spelling ← canonicalDid P sender (lit "the sender")
    pure (some spelling)

def bindRotation (proof : VerifiedFromPrior) (recipient : DidSpelling)
    (sender : Option DidSpelling) (successor : DidSpelling) : Binding :=
  match sender with
  | none => .mismatch (lit "a rotation arrives from an authenticated sender")
  | some sender =>
    if sender.canonical ≠ successor.canonical then
      .mismatch (lit "sub is " ++ successor.presented ++ lit " but the sender is " ++
        sender.presented)
    else if recipient.canonical = successor.canonical then
      .mismatch (lit "the recipient is the successor")
    else .bound (.rotate recipient.canonical proof.issuer.canonical successor.canonical)

def bindEnding (proof : VerifiedFromPrior) (recipient : DidSpelling)
    (sender : Option DidSpelling) (audience : Option DidSpelling) : Binding :=
  match sender, audience with
  | some _, _ => .mismatch (lit "an ending arrives without a sender")
  | none, none => .unbound
      (lit "the ending names no audience; this profile binds an ending only to the recipient it names")
  | none, some audience =>
    if audience.canonical ≠ recipient.canonical then
      .mismatch (lit "aud is " ++ audience.presented ++ lit " but the recipient is " ++
        recipient.presented)
    else .bound (.ending recipient.canonical proof.issuer.canonical)

def bindFromPrior (proof : VerifiedFromPrior) (receipt : Receipt) : Binding :=
  if receipt.token ≠ proof.token then
    .mismatch (lit "the receipt carries another token than the proof")
  else
    match canonicalDid P receipt.recipient (lit "the recipient") with
    | .error e => .mismatch e.message
    | .ok recipient =>
      match receiptSender P receipt.sender with
      | .error e => .mismatch e.message
      | .ok sender =>
        if recipient.canonical = proof.issuer.canonical then
          .mismatch (lit "the recipient is the issuer")
        else
          match proof.change with
          | .rotate successor => bindRotation proof recipient sender successor
          | .ending audience => bindEnding proof recipient sender audience

end

end Estoc.FromPrior
