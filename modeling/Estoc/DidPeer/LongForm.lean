import Estoc.DidPeer.Forms
import Estoc.Lib.JsonParse
import Estoc.Lib.TextDecoder

/-!
# What a long form decodes to

A long form carries its document, in base58, and the hash of it. It decodes where the hash
is the document's and the document is a JSON object, and resolves to that document under the
long form as its `id`. Hashing and base58 are other packages'.
-/

set_option linter.unusedSectionVars false

namespace Estoc.DidPeer

open Json (lit member setMember)
open Utf16 (JsString encodeUtf8)
open Checked (refuse)

/-- The members of an object, in order. -/
abbrev Members := List (JsString × Json)

/-- The packages underneath; an error carries the message it is caught with. -/
structure Packages where
  sha256 : List UInt8 → List UInt8
  bs58Encode : List UInt8 → JsString
  bs58Decode : JsString → Except JsString (List UInt8)
  /-- The canonical text of a value. -/
  serialize : Json → Except JsString JsString
  numbers : Json.NumberText
  /-- What `JSON.parse` refuses a text with. -/
  syntaxError : JsString → JsString

def MULTICODEC_JSON : List UInt8 := [0x80, 0x04]

def MULTIHASH_SHA2_256 : List UInt8 := [0x12, 0x20]

def MULTIBASE_BASE58BTC : UInt16 := 0x7A

def VERIFICATION_RELATIONSHIPS : List JsString :=
  [lit "authentication", lit "assertionMethod", lit "keyAgreement", lit "capabilityDelegation",
    lit "capabilityInvocation"]

section
variable (P : Packages)

def toMultibaseB58 (input : List UInt8) : JsString := MULTIBASE_BASE58BTC :: P.bs58Encode input

def fromMultibaseB58 (input : JsString) : Except JsString (List UInt8) := do
  refuse (input.head? ≠ some MULTIBASE_BASE58BTC) (lit "Multibase value must start with 'z'")
  P.bs58Decode (input.drop 1)

def hashDocument (encodedDocument : JsString) : JsString :=
  toMultibaseB58 P (MULTIHASH_SHA2_256 ++ P.sha256 (encodeUtf8 encodedDocument))

def decodeDocument (encodedDocument : JsString) : Except JsString Members := do
  let bytes ← fromMultibaseB58 P encodedDocument
  refuse (bytes.take 2 ≠ MULTICODEC_JSON)
    (lit "Encoded document is not multicodec-tagged JSON")
  let text := TextDecoder.decode (bytes.drop 2)
  match Json.parse P.numbers text with
  | none => .error (P.syntaxError text)
  | some (.object parsed) => pure parsed
  | some _ => .error (lit "Encoded document is not a JSON object")

/-- The hash checked and the document decoded. -/
def decodeAnew (did : JsString) : Except JsString Members :=
  match (did.drop 10).splitOn Json.colon with
  | hash :: encodedDocument :: _ => do
    refuse (hash ≠ hashDocument P encodedDocument) (lit "Hash is invalid for did: " ++ did)
    decodeDocument P encodedDocument
  | _ => .error (lit "Invalid did:peer:4")

def decodeLongForm (did : JsString) : Except JsString Members := do
  refuse ((lit "did:peer:4").isPrefixOf did = false) (lit "Not a did:peer:4")
  refuse (isShortForm did = true)
    (lit "Cannot decode a document from a short form did:peer:4")
  refuse (isLongForm did = false) (lit "Invalid did:peer:4")
  decodeAnew P did

/-- Every object of an array changed, where the member is an array. -/
def mapEntries (f : Members → Members) (document : Members) (name : JsString) : Members :=
  match member document name with
  | some (.array entries) => setMember document name (.array (entries.map fun
    | .object entry => .object (f entry)
    | entry => entry))
  | _ => document

def mapVerificationMethods (f : Members → Members) (document : Members) : Members :=
  (lit "verificationMethod" :: VERIFICATION_RELATIONSHIPS).foldl (mapEntries f) document

/-- The document under its DID, every method controlled by someone. -/
def contextualizeDocument (did : JsString) (document : Members) : Members :=
  mapVerificationMethods
    (fun method => if (member method (lit "controller")).isNone then
      setMember method (lit "controller") (.scalar (.string did)) else method)
    (setMember document (lit "id") (.scalar (.string did)))

def isText (text : JsString) : Json → Bool
  | .scalar (.string s) => s == text
  | _ => false

def withAlsoKnownAs (document : Members) (known : JsString) : Members :=
  let aliases := match member document (lit "alsoKnownAs") with
    | some (.array existing) => existing
    | _ => []
  setMember document (lit "alsoKnownAs") (.array
    (if aliases.any (isText known) then aliases else aliases ++ [.scalar (.string known)]))

/-- The document identified by the long form. -/
def resolveLongForm (did : JsString) : Except JsString Members := do
  let document ← decodeLongForm P did
  let short ← longToShort did
  pure (withAlsoKnownAs (contextualizeDocument did document) short)

end

end Estoc.DidPeer
