import Estoc.EventStore.StrictJson
import Estoc.EventStore.Event
import Estoc.Lib.Bytes
import Estoc.Lib.OMap

/-!
# Message documents

The closed form in which the vault keeps a message's body and attachments, the objects
that the inline content of the attachments becomes, and the way back to the wire form.
A member the wire may leave out is a member that is null here.

Hashing and canonical JSON are the event store's; the base64url codec is another
package's, of which the code relies on reading back what it wrote.
-/

set_option linter.unusedSectionVars false

namespace Estoc.Vault.Document

open Json (lit)
open Utf16 (JsString)
open Checked (refuse)
open EventStore (JsValue JsError Packages canonicalize canonicalText parseStrict decimal isRawCid
  rawCidFromDigest)
open EventStore.JsValue (get hasOwn ofJson)

inductive DocumentError where
  | invalidPlaintext (message : JsString)
  /-- What the functions underneath throw. -/
  | js (error : JsError)

abbrev Checks (α : Type) := Except DocumentError α

def invalid {α : Type} (message : JsString) : Checks α := .error (.invalidPlaintext message)

/-! ## Bytes -/

/-- Bytes in an array of their own. -/
def arrayOf (bytes : List UInt8) : Checks Uint8Array :=
  match newUint8Array bytes with
  | .ok a => .ok a
  | .error message => .error (.js (.rangeError (lit message)))

/-- The base64url codec, with padding and without. -/
structure Base64Url where
  decode : JsString → Except JsString Uint8Array
  decodeNoPad : JsString → Except JsString Uint8Array
  encodeNoPad : Uint8Array → JsString
  decodeNoPad_encodeNoPad : ∀ bytes, decodeNoPad (encodeNoPad bytes) = .ok bytes
  unpadded : ∀ bytes, 0x3D ∉ encodeNoPad bytes

abbrev Cid := JsString

/-! ## The stored form -/

/-- The carriers whose content becomes an object of its own. -/
inductive InlineKind where
  | base64
  | json
deriving DecidableEq

def InlineKind.text : InlineKind → JsString
  | .base64 => lit "base64"
  | .json => lit "json"

inductive StoredAttachmentData where
  | inline (kind : InlineKind) (root : Cid) (hash : Option JsString) (jws : JsValue)
  | links (links : List JsString) (hash : JsString) (jws : JsValue)

namespace StoredAttachmentData

def hash : StoredAttachmentData → Option JsString
  | .inline _ _ hash _ => hash
  | .links _ hash _ => some hash

def jws : StoredAttachmentData → JsValue
  | .inline _ _ _ jws => jws
  | .links _ _ jws => jws

/-- The CID of the object the content became. -/
def root? : StoredAttachmentData → Option Cid
  | .inline _ root _ _ => some root
  | .links _ _ _ => none

end StoredAttachmentData

/-- The members of an attachment other than its data. -/
structure Descriptor where
  id : Option JsString
  description : Option JsString
  filename : Option JsString
  media_type : Option JsString
  format : Option JsString
  lastmod_time : Option Binary64
  byte_count : Option Binary64

structure StoredAttachment extends Descriptor where
  data : StoredAttachmentData

structure StoredMessageDocument where
  body : JsValue
  attachments : List StoredAttachment

structure StoredObject where
  cid : Cid
  bytes : Uint8Array

/-- A message's content as the object store and the event will hold it. -/
structure StoredMessage where
  document : StoredMessageDocument
  bytes : Uint8Array
  bodyCid : Cid
  attachmentCids : List Cid
  roots : List Cid
  payloads : List StoredObject

def textOrNull : Option JsString → Scalar
  | none => .null
  | some s => .string s

def numberOrNull : Option Binary64 → Scalar
  | none => .null
  | some x => .number x

def Descriptor.scalars (d : Descriptor) : List (JsString × Scalar) :=
  [(lit "id", textOrNull d.id), (lit "description", textOrNull d.description),
    (lit "filename", textOrNull d.filename), (lit "media_type", textOrNull d.media_type),
    (lit "format", textOrNull d.format), (lit "lastmod_time", numberOrNull d.lastmod_time),
    (lit "byte_count", numberOrNull d.byte_count)]

/-- A stored form as the value that is canonicalized. -/
def StoredAttachmentData.value : StoredAttachmentData → JsValue
  | .inline kind root hash jws =>
    .object [(lit "kind", .str kind.text), (lit "root", .str root),
      (lit "hash", .scalar (textOrNull hash)), (lit "jws", jws)]
  | .links urls hash jws =>
    .object [(lit "kind", .str (lit "links")), (lit "links", .array (urls.map .str)),
      (lit "hash", .str hash), (lit "jws", jws)]

def StoredAttachment.value (stored : StoredAttachment) : JsValue :=
  .object ((stored.scalars.map fun m => (m.1, .scalar m.2)) ++ [(lit "data", stored.data.value)])

def StoredMessageDocument.value (document : StoredMessageDocument) : JsValue :=
  .object [(lit "body", document.body),
    (lit "attachments", .array (document.attachments.map StoredAttachment.value))]

/-! ## Members -/

def nullable {α : Type} (value : JsValue) («at» : JsString)
    (check : JsValue → JsString → Checks α) : Checks (Option α) :=
  match value with
  | .undefined => pure none
  | .scalar .null => pure none
  | value => do
    let checked ← check value «at»
    pure (some checked)

def text (value : JsValue) («at» : JsString) : Checks JsString :=
  match value with
  | .scalar (.string s) => pure s
  | _ => invalid («at» ++ lit " must be a string")

def multihash (value : JsValue) («at» : JsString) : Checks JsString :=
  match value with
  | .scalar (.string (u :: s)) => pure (u :: s)
  | _ => invalid («at» ++ lit " must be a non-empty multihash string")

/-- The characters of URIs that are never escaped. -/
def UNRESERVED (u : UInt16) : Bool :=
  (0x41 ≤ u.toNat && u.toNat ≤ 0x5A) || (0x61 ≤ u.toNat && u.toNat ≤ 0x7A) || Json.isDigit u ||
    u == 0x2E || u == 0x5F || u == 0x7E || u == 0x2D

def attachmentId (value : JsValue) («at» : JsString) : Checks JsString :=
  match value with
  | .scalar (.string s) =>
    if s ≠ [] ∧ s.all UNRESERVED then pure s
    else invalid («at» ++ lit " must be a non-empty string of URI unreserved characters")
  | _ => invalid («at» ++ lit " must be a non-empty string of URI unreserved characters")

def seconds (value : JsValue) («at» : JsString) : Checks Binary64 :=
  match value with
  | .scalar (.number x) =>
    if x.safeInteger?.isSome then pure x else invalid («at» ++ lit " must be an integer")
  | _ => invalid («at» ++ lit " must be an integer")

def count (value : JsValue) («at» : JsString) : Checks Binary64 :=
  match value with
  | .scalar (.number x) =>
    if x.safeInteger?.any (0 ≤ ·) then pure x
    else invalid («at» ++ lit " must be a non-negative integer")
  | _ => invalid («at» ++ lit " must be a non-negative integer")

/-- The link strings, non-empty each; `none` where an element is none. -/
def linkTexts : List JsValue → Option (List JsString)
  | [] => some []
  | .scalar (.string (u :: s)) :: rest => (linkTexts rest).map ((u :: s) :: ·)
  | _ :: _ => none

def links (value : JsValue) («at» : JsString) : Checks (List JsString) :=
  match value with
  | .array elements =>
    match linkTexts elements with
    | some (link :: rest) => pure (link :: rest)
    | _ => invalid («at» ++ lit " must be a non-empty array of non-empty strings")
  | _ => invalid («at» ++ lit " must be a non-empty array of non-empty strings")

def member {α : Type} (members : List (JsString × JsValue)) («at» name : JsString)
    (check : JsValue → JsString → Checks α) : Checks (Option α) :=
  nullable (get members name) («at» ++ lit "." ++ name) check

/-- The descriptor members other than `data`, absent and null both read as null. -/
def descriptorMembers (members : List (JsString × JsValue)) («at» : JsString) :
    Checks Descriptor := do
  let id ← member members «at» (lit "id") attachmentId
  let description ← member members «at» (lit "description") text
  let filename ← member members «at» (lit "filename") text
  let media_type ← member members «at» (lit "media_type") text
  let format ← member members «at» (lit "format") text
  let lastmod_time ← member members «at» (lit "lastmod_time") seconds
  let byte_count ← member members «at» (lit "byte_count") count
  pure ⟨id, description, filename, media_type, format, lastmod_time, byte_count⟩

def jwsOf (members : List (JsString × JsValue)) : JsValue :=
  match get members (lit "jws") with
  | .undefined => .scalar .null
  | jws => jws

/-! ## Storing -/

section Storing

variable (P : Packages) (B : Base64Url)

/-- The raw DASL CID of exactly these bytes. -/
def rawCidOfBytes (bytes : Uint8Array) : Cid := (rawCidFromDigest (P.sha256 bytes.bytes)).text

def canonicalized (value : JsValue) (notIJson : JsString) : Checks Uint8Array :=
  match canonicalize P value with
  | .ok bytes => arrayOf bytes
  | .error (.invalidJson message) => invalid (notIJson ++ lit ": " ++ message)
  | .error error => .error (.js error)

def canonicalDocument (document : StoredMessageDocument) : Checks Uint8Array :=
  canonicalized P document.value (lit "not I-JSON")

def canonicalJson (value : JsValue) («at» : JsString) : Checks Uint8Array :=
  canonicalized P value («at» ++ lit " is not I-JSON")

/-- Base64url as attachments carry it, padded or not. -/
def decodeBase64 (value : JsValue) («at» : JsString) : Checks Uint8Array :=
  match value with
  | .scalar (.string s) =>
    match if 0x3D ∈ s then B.decode s else B.decodeNoPad s with
    | .ok bytes => pure bytes
    | .error message => invalid («at» ++ lit " is not base64url: " ++ message)
  | _ => invalid («at» ++ lit " must be a string")

/-- The content of an inline carrier as the bytes it is stored as. -/
def inlineBytes (kind : InlineKind) (members : List (JsString × JsValue)) («at» : JsString) :
    Checks Uint8Array :=
  match kind with
  | .base64 => decodeBase64 B (get members (lit "base64")) («at» ++ lit ".base64")
  | .json => canonicalJson P (get members (lit "json")) («at» ++ lit ".json")

def CARRIERS : List JsString := [lit "base64", lit "json", lit "links"]

def storeData (value : JsValue) («at» : JsString) :
    Checks (StoredAttachmentData × Option StoredObject) :=
  match value with
  | .object members => do
    let store (kind : InlineKind) : Checks (StoredAttachmentData × Option StoredObject) := do
      let hash ← member members «at» (lit "hash") multihash
      let bytes ← inlineBytes P B kind members «at»
      let cid := rawCidOfBytes P bytes
      pure (.inline kind cid hash (jwsOf members), some ⟨cid, bytes⟩)
    match hasOwn members (lit "base64"), hasOwn members (lit "json"),
      hasOwn members (lit "links") with
    | true, false, false => store .base64
    | false, true, false => store .json
    | false, false, true => do
      let hash ← member members «at» (lit "hash") multihash
      match hash with
      | none => invalid («at» ++ lit ".hash is required with links")
      | some hash =>
        let links ← links (get members (lit "links")) («at» ++ lit ".links")
        pure (.links links hash (jwsOf members), none)
    | _, _, _ =>
      let carriers := CARRIERS.filter fun carrier => hasOwn members carrier
      invalid («at» ++ lit " carries exactly one of base64, json and links, not " ++
        (if carriers = [] then lit "none" else (lit " and ").intercalate carriers))
  | _ => invalid («at» ++ lit " must be a JSON object")

def storeAttachment (value : JsValue) («at» : JsString) :
    Checks (StoredAttachment × Option StoredObject) :=
  match value with
  | .object members => do
    let descriptor ← descriptorMembers members «at»
    let (data, payload) ← storeData P B (get members (lit "data")) («at» ++ lit ".data")
    match payload with
    | none => pure (⟨descriptor, data⟩, none)
    | some payload => do
      let length := payload.bytes.length
      refuse (∃ count ∈ descriptor.byte_count, count.safeInteger? ≠ some (length : Int))
        (.invalidPlaintext («at» ++ lit ".byte_count says " ++
          (descriptor.byte_count.elim [] P.numbers.text) ++ lit " but the inline content is " ++
          decimal length ++ lit " bytes"))
      pure (⟨{ descriptor with byte_count := some (Binary64.ofInt length) }, data⟩, some payload)
  | _ => invalid («at» ++ lit " must be a JSON object")

/-- The attachments from the index `i` on. -/
def storeAttachments : List JsValue → (i : Nat) →
    Checks (List (StoredAttachment × Option StoredObject))
  | [], _ => pure []
  | attachment :: rest, i => do
    let stored ← storeAttachment P B attachment (lit "attachments[" ++ decimal i ++ lit "]")
    let others ← storeAttachments rest (i + 1)
    pure (stored :: others)

/-- The objects, of two under one CID the first. -/
def distinctObjects (objects : List StoredObject) : OMap Cid Uint8Array :=
  objects.foldl (fun payloads payload =>
    if payloads.has payload.cid then payloads else payloads.set payload.cid payload.bytes)
    OMap.empty

/-- `bodyCid` followed by `attachmentCids`, each CID once, in first-seen order. -/
def messageRoots (bodyCid : Cid) (attachmentCids : List Cid) : List Cid :=
  OMap.once (bodyCid :: attachmentCids)

/-- The attachments of a plaintext that leaves them out are none. -/
def attachmentList : JsValue → Checks (List JsValue)
  | .undefined => pure []
  | .array elements => pure elements
  | _ => invalid (lit "attachments must be an array")

def storeMessage (body attachments : JsValue) : Checks StoredMessage := do
  refuse (body.isJsonObject = false) (.invalidPlaintext (lit "body must be a JSON object"))
  let attachments ← attachmentList attachments
  let stored ← storeAttachments P B attachments 0
  let payloads := distinctObjects (stored.filterMap Prod.snd)
  let document : StoredMessageDocument := ⟨body, stored.map Prod.fst⟩
  let bytes ← canonicalDocument P document
  let bodyCid := rawCidOfBytes P bytes
  pure
    { document := document, bytes := bytes, bodyCid := bodyCid, attachmentCids := payloads.keys
      roots := messageRoots bodyCid payloads.keys
      payloads := payloads.entries.map fun payload => ⟨payload.1, payload.2⟩ }

end Storing

/-! ## Reading -/

def exactly (members : List (JsString × JsValue)) (names : List JsString) : Bool :=
  Cmp.sortBy Json.compareUnits (members.map Prod.fst) == names

def DESCRIPTOR_MEMBERS : List JsString :=
  [lit "byte_count", lit "data", lit "description", lit "filename", lit "format", lit "id",
    lit "lastmod_time", lit "media_type"]
def INLINE_DATA_MEMBERS : List JsString := [lit "hash", lit "jws", lit "kind", lit "root"]
def LINKS_DATA_MEMBERS : List JsString := [lit "hash", lit "jws", lit "kind", lit "links"]

def readStoredInline (kind : InlineKind) (members : List (JsString × JsValue))
    («at» : JsString) : Checks StoredAttachmentData := do
  refuse (exactly members INLINE_DATA_MEMBERS = false) (.invalidPlaintext («at» ++
    lit " must have exactly the stored " ++ kind.text ++ lit " members"))
  match get members (lit "root") with
  | .scalar (.string root) =>
    refuse (isRawCid root = false)
      (.invalidPlaintext («at» ++ lit ".root must be a raw DASL CID"))
    let hash ← member members «at» (lit "hash") multihash
    pure (.inline kind root hash (jwsOf members))
  | _ => invalid («at» ++ lit ".root must be a raw DASL CID")

def readStoredData (value : JsValue) («at» : JsString) : Checks StoredAttachmentData :=
  match value with
  | .object members =>
    if (get members (lit "kind")).string? = some (lit "links") then do
      refuse (exactly members LINKS_DATA_MEMBERS = false)
        (.invalidPlaintext («at» ++ lit " must have exactly the stored links members"))
      let links ← links (get members (lit "links")) («at» ++ lit ".links")
      let hash ← multihash (get members (lit "hash")) («at» ++ lit ".hash")
      pure (.links links hash (jwsOf members))
    else if (get members (lit "kind")).string? = some (lit "base64") then
      readStoredInline .base64 members «at»
    else if (get members (lit "kind")).string? = some (lit "json") then
      readStoredInline .json members «at»
    else invalid («at» ++ lit ".kind must be base64, json or links")
  | _ => invalid («at» ++ lit " must be a JSON object")

def readStoredAttachment (value : JsValue) («at» : JsString) : Checks StoredAttachment :=
  match value with
  | .object members => do
    refuse (exactly members DESCRIPTOR_MEMBERS = false)
      (.invalidPlaintext («at» ++ lit " must have exactly the stored descriptor members"))
    let descriptor ← descriptorMembers members «at»
    let data ← readStoredData (get members (lit "data")) («at» ++ lit ".data")
    match data with
    | .inline kind _ _ _ => do
      refuse (descriptor.byte_count = none) (.invalidPlaintext («at» ++
        lit ".byte_count must be the length of the inline " ++ kind.text ++ lit " payload"))
      pure ⟨descriptor, data⟩
    | .links _ _ _ => pure ⟨descriptor, data⟩
  | _ => invalid («at» ++ lit " must have exactly the stored descriptor members")

def readStoredAttachments : List JsValue → (i : Nat) → Checks (List StoredAttachment)
  | [], _ => pure []
  | attachment :: rest, i => do
    let stored ← readStoredAttachment attachment (lit "attachments[" ++ decimal i ++ lit "]")
    let others ← readStoredAttachments rest (i + 1)
    pure (stored :: others)

def readStoredDocument (value : JsValue) : Checks StoredMessageDocument :=
  match value with
  | .object members => do
    refuse (exactly members [lit "attachments", lit "body"] = false)
      (.invalidPlaintext (lit "a stored document must have exactly body and attachments"))
    refuse ((get members (lit "body")).isJsonObject = false)
      (.invalidPlaintext (lit "body must be a JSON object"))
    match get members (lit "attachments") with
    | .array elements => do
      let attachments ← readStoredAttachments elements 0
      pure ⟨get members (lit "body"), attachments⟩
    | _ => invalid (lit "attachments must be an array")
  | _ => invalid (lit "a stored document must have exactly body and attachments")

/-! ## The wire form -/

section Wire

variable (P : Packages) (B : Base64Url)

/-- The text of bytes that were read as text before: a byte-order mark is no part of it. -/
def decodedText (bytes : Uint8Array) : JsString :=
  match Utf16.decodeUtf8 bytes.bytes with
  | some (u :: text) => if u = 0xFEFF then text else u :: text
  | _ => []

def fromJs {α : Type} : Except JsError α → Checks α
  | .ok a => .ok a
  | .error error => .error (.js error)

def canonicalJsonPayload (payload : Uint8Array) (root : Cid) : Checks JsValue := do
  let parsed ← fromJs (parseStrict P payload.bytes false)
  let value := parsed.elim .undefined ofJson
  let canonical ← fromJs (canonicalText P value)
  refuse (canonical ≠ decodedText payload) (.invalidPlaintext (lit "the JSON payload " ++ root ++
    lit " is not in canonical form"))
  pure value

/-- The member of the wire form an inline payload comes back as. -/
def wireInline (kind : InlineKind) (root : Cid) (byteCount : Option Binary64)
    (payload : Option Uint8Array) : Checks (JsString × JsValue) :=
  match payload with
  | none => invalid (lit "a " ++ kind.text ++ lit " attachment needs its payload bytes")
  | some payload => do
    refuse (rawCidOfBytes P payload ≠ root)
      (.invalidPlaintext (lit "the payload is not the object " ++ root))
    refuse (byteCount.bind Binary64.safeInteger? ≠ some (payload.length : Int))
      (.invalidPlaintext (lit "the payload is " ++ decimal payload.length ++
        lit " bytes, not the stored byte_count " ++ byteCount.elim (lit "null") P.numbers.text))
    match kind with
    | .base64 => pure (lit "base64", .str (B.encodeNoPad payload))
    | .json => do
      let value ← canonicalJsonPayload P payload root
      pure (lit "json", value)

/-- The members that are not null. -/
def present (members : List (JsString × Scalar)) : List (JsString × JsValue) :=
  (members.filter fun m => m.2 ≠ .null).map fun m => (m.1, .scalar m.2)

/-- A member left out where it is null. -/
def unlessNull (name : JsString) (value : JsValue) : List (JsString × JsValue) :=
  match value with
  | .scalar .null => []
  | value => [(name, value)]

/-- The one member that carries the content. -/
def wireCarrier (stored : StoredAttachment) (payload : Option Uint8Array) :
    Checks (JsString × JsValue) :=
  match stored.data with
  | .links urls _ _ => pure (lit "links", .array (urls.map .str))
  | .inline kind root _ _ => wireInline P B kind root stored.byte_count payload

/-- A stored descriptor as the wire carries it, its inline content encoded again from its
payload bytes. -/
def wireAttachment (stored : StoredAttachment) (payload : Option Uint8Array) : Checks JsValue := do
  let carrier ← wireCarrier P B stored payload
  let data := carrier :: unlessNull (lit "hash") (.scalar (textOrNull stored.data.hash)) ++
    unlessNull (lit "jws") stored.data.jws
  pure (.object (present stored.scalars ++ [(lit "data", .object data)]))

/-- The attachments of a document on the wire, their payloads being found by CID. -/
def wireAttachments (payloadOf : Cid → Option Uint8Array) :
    List StoredAttachment → Checks (List JsValue)
  | [] => pure []
  | stored :: rest => do
    let wire ← wireAttachment P B stored (stored.data.root?.bind payloadOf)
    let others ← wireAttachments payloadOf rest
    pure (wire :: others)

end Wire

/-- The object of a CID among those of a stored message. -/
def StoredMessage.payloadOf (message : StoredMessage) (cid : Cid) : Option Uint8Array :=
  (message.payloads.find? fun payload => payload.cid = cid).map StoredObject.bytes

end Estoc.Vault.Document
