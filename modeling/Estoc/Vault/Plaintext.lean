import Estoc.Vault.Document
import Estoc.Vault.Outbound

/-!
# Plaintexts and intents

What a message means, as the value each layer identifies: the intent, one fixed application message
under its CID, and the plaintext that carries it under a message ID. `readPlaintext` takes a plaintext
apart into what is stored, what the events record, the intent and the addressing that is not intent;
`wirePlaintext` puts an intent on the wire.
-/

set_option linter.unusedSectionVars false

namespace Estoc.Vault.Plaintext

open Json (lit)
open Utf16 (JsString)
open Checked (refuse)
open EventStore (JsValue JsError Packages canonicalText parseText isRawCid)
open EventStore.JsValue (get hasOwn ofJson)
open Document (Checks DocumentError Base64Url Cid StoredMessage StoredMessageDocument invalid nullable
  textOrNull numberOrNull canonicalized canonicalDocument rawCidOfBytes storeMessage wireAttachments)

def PLAINTEXT_TYP : JsString := lit "application/didcomm-plain+json"

/-- The members a dedicated field models, or that a vault plaintext may not carry. -/
def RESERVED_HEADERS : List JsString :=
  [lit "typ", lit "id", lit "type", lit "from", lit "to", lit "created_time", lit "expires_time",
    lit "thid", lit "pthid", lit "please_ack", lit "ack", lit "from_prior", lit "return_route",
    lit "body", lit "attachments"]

def INTENT_KIND : JsString := lit "estoc.message.intent"

def INTENT_VERSION : Binary64 := Binary64.ofInt 1

/-- The control headers of a message as the wire spells them, its own ID aside. -/
structure ControlHeaders where
  type : JsString
  thid : Option JsString
  pthid : Option JsString
  createdTime : Option Binary64
  expiresTime : Option Binary64
  pleaseAck : Option (List JsString)
  ack : List JsString
  headers : JsValue

/-- The application message the intent CID identifies: every reference to the message itself is
`SELF`, and the stored document is its CID. -/
structure Intent where
  type : JsString
  thid : JsString
  pthid : Option JsString
  createdTime : Option Binary64
  expiresTime : Option Binary64
  pleaseAck : Option (List JsString)
  ack : List JsString
  document : Cid
  headers : List (JsString × JsValue)

structure Identified (α : Type) where
  cid : Cid
  value : α

/-- What a preparation adds to an intent. -/
structure Addressing where
  «from» : JsString
  «to» : List JsString
  fromPrior : Option JsString

/-! ## Members -/

def nonEmpty (value : JsValue) («at» : JsString) : Checks JsString :=
  match value with
  | .scalar (.string (u :: s)) => pure (u :: s)
  | _ => invalid («at» ++ lit " must be a non-empty string")

def did (value : JsValue) («at» : JsString) : Checks JsString :=
  match value with
  | .scalar (.string s) => if isDid s then pure s else invalid («at» ++ lit " must be a DID")
  | _ => invalid («at» ++ lit " must be a DID")

/-- The elements of an array from the index `i` on. -/
def didsFrom («at» : JsString) : List JsValue → (i : Nat) → Checks (List JsString)
  | [], _ => pure []
  | entry :: rest, i => do
    let first ← did entry («at» ++ lit "[" ++ EventStore.decimal i ++ lit "]")
    let others ← didsFrom «at» rest (i + 1)
    pure (first :: others)

def dids (value : JsValue) («at» : JsString) : Checks (List JsString) :=
  match value with
  | .array elements => didsFrom «at» elements 0
  | _ => invalid («at» ++ lit " must be an array of DIDs")

def epochSeconds (value : JsValue) («at» : JsString) : Checks Binary64 :=
  match value with
  | .scalar (.number x) =>
    if x.safeInteger?.isSome then pure x
    else invalid («at» ++ lit " must be an integer count of seconds")
  | _ => invalid («at» ++ lit " must be an integer count of seconds")

/-- The strings of a list; `none` where an element is none. -/
def texts : List JsValue → Option (List JsString)
  | [] => some []
  | .scalar (.string s) :: rest => (texts rest).map (s :: ·)
  | _ :: _ => none

def strings (value : JsValue) («at» : JsString) : Checks (List JsString) :=
  match value with
  | .array elements =>
    match texts elements with
    | some strings => pure strings
    | none => invalid («at» ++ lit " must be an array of strings")
  | _ => invalid («at» ++ lit " must be an array of strings")

def plaintextTyp (value : JsValue) («at» : JsString) : Checks JsString :=
  match value with
  | .scalar (.string s) =>
    if s = PLAINTEXT_TYP then pure s else invalid («at» ++ lit " must be " ++ Json.quote PLAINTEXT_TYP)
  | _ => invalid («at» ++ lit " must be " ++ Json.quote PLAINTEXT_TYP)

def text (value : JsValue) («at» : JsString) : Checks JsString :=
  match value with
  | .scalar (.string s) => pure s
  | _ => invalid («at» ++ lit " must be a string")

/-- The times have been found to be integers before. -/
def checkExpiry (createdTime expiresTime : Option Binary64) : Checks Unit :=
  match createdTime.bind Binary64.safeInteger?, expiresTime.bind Binary64.safeInteger? with
  | some created, some expires => refuse (expires ≤ created)
      (.invalidPlaintext (lit "expires_time must be later than created_time"))
  | _, _ => pure ()

/-- `headers` of an intent: a JSON object with no reserved member. -/
def checkHeaders (value : JsValue) («at» : JsString) : Checks (List (JsString × JsValue)) :=
  match value with
  | .object members =>
    match members.find? fun m => m.1 ∈ RESERVED_HEADERS with
    | some m => invalid («at» ++ lit " carries the reserved header " ++ Json.quote m.1)
    | none => pure members
  | _ => invalid («at» ++ lit " must be a JSON object")

/-- A list of strings, or null. -/
def stringsOrNull : Option (List JsString) → JsValue
  | none => .scalar .null
  | some strings => .array (strings.map .str)

/-! ## The intent -/

section Intents

variable (P : Packages)

/-- What is not I-JSON is an invalid plaintext. -/
def notIJson (what : JsString) : JsError → DocumentError
  | .invalidJson message => .invalidPlaintext (what ++ lit " is not I-JSON: " ++ message)
  | error => .js error

/-- A value as its own JSON: a copy with nothing but I-JSON in it. -/
def copyOf (value : JsValue) («at» : JsString) : Checks JsValue :=
  ((canonicalText P value >>= fun text => parseText P text false).mapError (notIJson «at»)).map
    fun parsed => parsed.elim .undefined ofJson

def cidOf (value : JsValue) (what : JsString) : Checks Cid := do
  let bytes ← canonicalized P value (what ++ lit " is not I-JSON")
  pure (rawCidOfBytes P bytes)

/-- The object the intent CID is taken over, after the kind and the version. -/
def intentProjection (intent : Intent) : JsValue :=
  .object [(lit "type", .str intent.type), (lit "thid", .str intent.thid),
    (lit "pthid", .scalar (textOrNull intent.pthid)),
    (lit "created_time", .scalar (numberOrNull intent.createdTime)),
    (lit "expires_time", .scalar (numberOrNull intent.expiresTime)),
    (lit "please_ack", stringsOrNull intent.pleaseAck), (lit "ack", .array (intent.ack.map .str)),
    (lit "document", .str intent.document), (lit "headers", .object intent.headers)]

/-- The intent of a message, under its CID: the own ID tells which references are the message's
own. -/
def intentOf (ownId : JsString) (control : ControlHeaders) (document : Cid) :
    Checks (Identified Intent) := do
  let own ← nonEmpty (.str ownId) (lit "the own ID")
  let thid ← nullable (.scalar (textOrNull control.thid)) (lit "thid") nonEmpty
  let createdTime ← nullable (.scalar (numberOrNull control.createdTime)) (lit "createdTime") epochSeconds
  let expiresTime ← nullable (.scalar (numberOrNull control.expiresTime)) (lit "expiresTime") epochSeconds
  checkExpiry createdTime expiresTime
  refuse (isRawCid document = false) (.invalidPlaintext (lit "document must be a raw DASL CID"))
  let type ← nonEmpty (.str control.type) (lit "type")
  let pthid ← nullable (.scalar (textOrNull control.pthid)) (lit "pthid") nonEmpty
  let pleaseAck ← nullable (stringsOrNull control.pleaseAck) (lit "pleaseAck") strings
  let ack ← nullable (.array (control.ack.map .str)) (lit "ack") strings
  let copy ← copyOf P control.headers (lit "headers")
  let headers ← checkHeaders copy (lit "headers")
  let intent : Intent :=
    { type := type, thid := thid.elim SELF (selfOr own), pthid := pthid, createdTime := createdTime
      expiresTime := expiresTime, pleaseAck := pleaseAck.map fun targets => targets.map (selfOr own)
      ack := ack.getD [], document := document, headers := headers }
  let cid ← cidOf P (.array [.str INTENT_KIND, .scalar (.number INTENT_VERSION), intentProjection intent])
    (lit "the intent projection")
  pure ⟨cid, intent⟩

/-- The CID of one complete plaintext. -/
def plaintextCidOf (plaintext : JsValue) : Checks Cid := cidOf P plaintext (lit "the plaintext")

end Intents

/-! ## Reading -/

/-- A plaintext taken apart. -/
structure ReadPlaintext where
  plaintext : JsValue
  plaintextCid : Cid
  id : JsString
  control : ControlHeaders
  intent : Identified Intent
  stored : StoredMessage
  typ : Option JsString
  «from» : Option JsString
  «to» : Option (List JsString)
  fromPrior : Option JsString

section Wire

variable (P : Packages) (B : Base64Url)

/-- A plaintext, as parsed, taken apart. Absent and null optional headers both read as absent. -/
def readPlaintext (value : JsValue) : Checks ReadPlaintext :=
  match value with
  | .object members => do
    refuse (hasOwn members (lit "return_route") = true)
      (.invalidPlaintext (lit "return_route is not allowed in a vault plaintext"))
    let id ← nonEmpty (get members (lit "id")) (lit "id")
    let type ← nonEmpty (get members (lit "type")) (lit "type")
    let typ ← nullable (get members (lit "typ")) (lit "typ") plaintextTyp
    let «from» ← nullable (get members (lit "from")) (lit "from") did
    let «to» ← nullable (get members (lit "to")) (lit "to") dids
    let thid ← nullable (get members (lit "thid")) (lit "thid") nonEmpty
    let pthid ← nullable (get members (lit "pthid")) (lit "pthid") nonEmpty
    let createdTime ← nullable (get members (lit "created_time")) (lit "created_time") epochSeconds
    let expiresTime ← nullable (get members (lit "expires_time")) (lit "expires_time") epochSeconds
    checkExpiry createdTime expiresTime
    let pleaseAck ← nullable (get members (lit "please_ack")) (lit "please_ack") strings
    let ack ← nullable (get members (lit "ack")) (lit "ack") strings
    let fromPrior ← nullable (get members (lit "from_prior")) (lit "from_prior") text
    let stored ← storeMessage P B (get members (lit "body")) (get members (lit "attachments"))
    let copy ← copyOf P (.object (members.filter fun m => m.1 ∉ RESERVED_HEADERS)) (lit "headers")
    let headers ← checkHeaders copy (lit "headers")
    let control : ControlHeaders :=
      ⟨type, thid, pthid, createdTime, expiresTime, pleaseAck, ack.getD [], .object headers⟩
    let intent ← intentOf P id control stored.bodyCid
    let plaintextCid ← plaintextCidOf P value
    pure ⟨value, plaintextCid, id, control, intent, stored, typ, «from», «to», fromPrior⟩
  | _ => invalid (lit "a plaintext must be a JSON object")

/-! ## Writing -/

/-- The CID of a stored message document. -/
def documentCidOf (document : StoredMessageDocument) : Checks Cid := do
  let bytes ← canonicalDocument P document
  pure (rawCidOfBytes P bytes)

/-- The members a plaintext has beside its headers, each with its value where it has one. -/
def wireFields (intent : Intent) (id : JsString) (body : JsValue) (addressing : Addressing)
    (wires : List JsValue) : List (JsString × Option JsValue) :=
  [(lit "typ", some (.str PLAINTEXT_TYP)), (lit "id", some (.str id)),
    (lit "type", some (.str intent.type)), (lit "from", some (.str addressing.«from»)),
    (lit "to", some (.array (addressing.«to».map .str))),
    (lit "created_time", intent.createdTime.map fun x => .scalar (.number x)),
    (lit "expires_time", intent.expiresTime.map fun x => .scalar (.number x)),
    (lit "thid", if intent.thid = SELF then none else some (.str intent.thid)),
    (lit "pthid", intent.pthid.map .str),
    (lit "please_ack", intent.pleaseAck.map fun targets => .array (targets.map .str)),
    (lit "ack", if intent.ack = [] then none else some (.array (intent.ack.map .str))),
    (lit "from_prior", addressing.fromPrior.map .str), (lit "body", some body),
    (lit "attachments", if wires = [] then none else some (.array wires))]

/-- The fields that have a value. -/
def given (fields : List (JsString × Option JsValue)) : List (JsString × JsValue) :=
  fields.filterMap fun field => field.2.map fun value => (field.1, value)

/-- The complete innermost plaintext of an intent under an ID: the headers, none of which has the
name of a field, and the fields after them. -/
def wirePlaintext (intent : Intent) (id : JsString) (document : StoredMessageDocument)
    (addressing : Addressing) (payloadOf : Cid → Option Uint8Array) : Checks JsValue := do
  let documentCid ← documentCidOf P document
  refuse (documentCid ≠ intent.document) (.invalidPlaintext (lit "the document is " ++ documentCid ++
    lit ", not the intent's " ++ intent.document))
  let headers ← checkHeaders (.object intent.headers) (lit "headers")
  let id ← nonEmpty (.str id) (lit "id")
  let wires ← wireAttachments P B payloadOf document.attachments
  pure (.object (headers ++ given (wireFields intent id document.body addressing wires)))

end Wire

end Estoc.Vault.Plaintext
