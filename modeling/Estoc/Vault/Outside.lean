import Estoc.Vault.Ids

/-!
# What the folds take from elsewhere

A fold is a function of the events and of the verdicts reached beside it. It reads documents,
decodes keys, takes a `from_prior` token apart, derives identifiers and asks the continuity
package, and what it makes of their answers is its own. `Outside` is those answers, whatever
they are: nothing proved about the folds rests on any of them being one thing or another.
-/

set_option linter.unusedSectionVars false

namespace Estoc.Vault

open Json (lit)
open Utf16 (JsString)
open DidPeer (isShortForm isLongForm longToShort)
open Checked (refuse)

/-! ## Keys -/

inductive KeyType where
  | ed25519
  | x25519
  | secp256k1
  | p256
  | p384
  | p521
deriving DecidableEq

def KeyType.text : KeyType → JsString
  | .ed25519 => lit "Ed25519"
  | .x25519 => lit "X25519"
  | .secp256k1 => lit "secp256k1"
  | .p256 => lit "P-256"
  | .p384 => lit "P-384"
  | .p521 => lit "P-521"

/-- The types DIDComm agrees keys over. -/
def KEY_AGREEMENT_TYPES : List KeyType := [.x25519, .p256, .p384, .p521]

/-! ## Documents -/

inductive Relationship where
  | authentication
  | keyAgreement
deriving DecidableEq

/-- The retained resolution of one long form. -/
structure PeerResolution where
  did : Did
  presentedDid : Did
  document : Json
  cid : Cid

/-- Where a document sends its traffic. -/
inductive RouteTarget where
  | mediated (routingDid : Did)
  | direct (endpoint : JsString)
deriving DecidableEq

/-! ## `from_prior` -/

/-- A DID as it was presented and the identity that spelling validates to. -/
structure DidSpelling where
  presented : Did
  canonical : Did
deriving DecidableEq

/-- The claims of a token the profile does not refuse. -/
structure Claims where
  iss : Did
  sub : Option Did
deriving DecidableEq

inductive VerifiedChange where
  | rotate (successor : DidSpelling)
  | ending (audience : Option DidSpelling)
deriving DecidableEq

/-- A proof that verified under the profile, before any receipt binding. -/
structure VerifiedFromPrior where
  token : JsString
  issuer : DidSpelling
  change : VerifiedChange
deriving DecidableEq

/-! ## Continuity -/

inductive Side where
  | ours
  | peer
deriving DecidableEq

inductive Change where
  | rotate (successor : Did)
  | ending
deriving DecidableEq

/-- A fact is its content. -/
inductive ContinuityFact where
  | peerObservation (at_ : Channel) (rotatedFrom : Option Did)
  | peerEnding (at_ : Channel)
  | localDecision (at_ : Channel) (change : Change)
deriving DecidableEq

inductive FactStatus where
  | unknown
  | conflict (because : JsString)
  | waiting (because : JsString)
  | usable

inductive HeadResult where
  | head (channel : Channel)
  | ended
  | unresolved
  | conflict
  | noEvidence

inductive PathResult where
  | path
  | none
  | conflict

structure PositiveLink where
  from_ : Channel
  to_ : Channel

structure History where
  links : List PositiveLink
  sameLocal : List Channel

/-- The model derived over a set of facts, as its host asks it. -/
structure ContinuityModel where
  head : Channel → HeadResult
  changes : Channel → Side → List Change
  path : Channel → Channel → PathResult
  history : Channel → History
  status : ContinuityFact → FactStatus

/-! ## All of it -/

/-- The answers a fold is given. An error carries the message it is caught with. -/
structure Outside where
  /-- The document a long form resolves to. -/
  retainedDocument : Did → Except JsString Json
  /-- The CID of a document's canonical bytes. -/
  canonicalCid : Json → Except JsString Cid
  authorizedMethodIds : Json → Relationship → Except JsString (List DidUrl)
  methodPublicKey : Json → DidUrl → Except JsString PublicKey
  didcommServiceUris : Json → Except JsString (List JsString)
  /-- A DID routes, an HTTPS or WSS URL is an endpoint, and nothing else is either. -/
  serviceTargetOf : JsString → Option RouteTarget
  decodePublicKey : PublicKey → Except JsString KeyType
  /-- Whether a key of a type that agrees keys is a point that does. -/
  contributes : PublicKey → Bool
  /-- The token taken apart, and held to the sender where one is given. -/
  precheckFromPrior : JsString → (authenticatedSender : Option Did) → Except JsString Claims
  /-- Whether a long form decodes. -/
  decodeLongForm : Did → Except JsString Unit
  derive : NamespacePurpose → Json → JsString
  /-- The stored content of a message with an empty body and no attachments. -/
  EMPTY_CONTENT_CID : Cid
  deriveContinuity : List ContinuityFact → ContinuityModel

namespace Outside

/-- Nothing resolves, decodes or is derived. -/
def silent : Outside where
  retainedDocument _ := .error []
  canonicalCid _ := .error []
  authorizedMethodIds _ _ := .error []
  methodPublicKey _ _ := .error []
  didcommServiceUris _ := .error []
  serviceTargetOf _ := none
  decodePublicKey _ := .error []
  contributes _ := false
  precheckFromPrior _ _ := .error []
  decodeLongForm _ := .error []
  derive _ _ := []
  EMPTY_CONTENT_CID := []
  deriveContinuity _ := ⟨fun _ => .noEvidence, fun _ _ => [], fun _ _ => .none, fun _ => ⟨[], []⟩,
    fun _ => .unknown⟩

variable (O : Outside)

/-- The key as one that agrees keys. -/
def agreementKey (key : PublicKey) : Except JsString KeyType := do
  let type ← O.decodePublicKey key
  refuse (type ∉ KEY_AGREEMENT_TYPES) (key ++ lit " is a " ++ type.text ++
    lit " key, which agrees no keys")
  refuse (type = .x25519 ∧ O.contributes key = false) (key ++
    lit " is a low-order X25519 point, which agrees no keys")
  pure type

def retainedDocumentOf (longFormDid : Did) : Except JsString Json := do
  refuse (isLongForm longFormDid = false) (lit "not a did:peer:4 long form")
  O.retainedDocument longFormDid

/-- The DID a spelling names: a long form that resolves is its short form, every other DID
the exact text. -/
def canonicalDidOf (presented : Did) : Except JsString Did := do
  refuse (isDid presented = false) (lit "not a DID: " ++ Json.quote presented)
  if !(lit "did:peer:4").isPrefixOf presented || isShortForm presented then pure presented
  else
    let _ ← O.retainedDocumentOf presented
    longToShort presented

/-- The DID a spelling names is the DID it itself names. -/
theorem canonicalDidOf_idem {presented did : Did} (h : O.canonicalDidOf presented = .ok did) :
    O.canonicalDidOf did = .ok did := by
  have hpresented := h
  unfold canonicalDidOf at h
  obtain ⟨-, h⟩ := Checked.refuse_bind_eq_ok.mp h
  split at h
  · cases h
    exact hpresented
  · obtain ⟨document, hdocument, h⟩ := Checked.bind_eq_ok.mp h
    obtain ⟨hlong, -⟩ := Checked.refuse_bind_eq_ok.mp hdocument
    have hlong : isLongForm presented = true := by simpa using hlong
    rw [DidPeer.longToShort_eq hlong] at h
    cases h
    have hshort := DidPeer.isShortForm_take hlong
    unfold canonicalDidOf
    rw [Checked.refuse_of_not (by simp [isDid_of_shortForm hshort]), hshort]
    simp

def peerResolution (longFormDid : Did) : Except JsString PeerResolution := do
  let document ← O.retainedDocumentOf longFormDid
  let cid ← (O.canonicalCid document).mapError fun message =>
    lit "the document does not canonicalize: " ++ message
  let did ← longToShort longFormDid
  pure ⟨did, longFormDid, document, cid⟩

/-- The identity a did:peer:4 spelling names, a long form checked against its hash. -/
def spelling (spelling what : JsString) : Except JsString DidSpelling := do
  if isShortForm spelling then pure ⟨spelling, spelling⟩
  else
    refuse (isLongForm spelling = false) (what ++ lit " is a did:peer:4")
    (O.decodeLongForm spelling).mapError fun message =>
      what ++ lit " does not decode: " ++ message
    let short ← longToShort spelling
    pure ⟨spelling, short⟩

end Outside

/-! ## Binding a proof -/

/-- What was established about the receipt a proof arrived on. -/
structure Receipt where
  token : JsString
  recipient : Did
  sender : Did

inductive BoundChange where
  | rotate (recipient issuer successor : Did)
  | ending (recipient issuer : Did)
deriving DecidableEq

/-- A proof bound to an authenticated receipt that carries it: the successor wrote to the
recipient, having rotated from the issuer. Anything else binds nothing, and says why. -/
def bindFromPrior (O : Outside) (proof : VerifiedFromPrior) (receipt : Receipt) :
    Except JsString BoundChange := do
  refuse (receipt.token ≠ proof.token) (lit "the receipt carries another token than the proof")
  let recipient ← O.spelling receipt.recipient (lit "the recipient")
  let sender ← O.spelling receipt.sender (lit "the sender")
  refuse (recipient.canonical = proof.issuer.canonical) (lit "the recipient is the issuer")
  match proof.change with
  | .rotate successor =>
    refuse (sender.canonical ≠ successor.canonical) (lit "sub is " ++ successor.presented ++
      lit " but the sender is " ++ sender.presented)
    refuse (recipient.canonical = successor.canonical) (lit "the recipient is the successor")
    pure (.rotate recipient.canonical proof.issuer.canonical successor.canonical)
  | .ending _ => .error (lit "an ending arrives without a sender")

end Estoc.Vault
