import Estoc.EventStore.Stringify
import Estoc.Wire.Bytes

/-!
# Frames

Frames as a port carries them: application envelopes with their payloads. Reading is in two steps,
the envelope first and its payload once the method or event it belongs to is known, since that is
what says where bytes may be and what budget the payload has.

A frame that arrived holds data only: a text port parsed it and a structured-clone port copied it,
so no property of it is one that a function answers.
-/

set_option linter.unusedSectionVars false

namespace Estoc.Wire

open Json (lit NumberText)
open Utf16 (JsString)
open Checked (refuse)
open EventStore (decimal)
open EventStore.JsValue (stringifying)

inductive Transport where
  | text
  | clone
deriving DecidableEq

/-! ## Values as JSON -/

mutual

/-- What parsing JSON makes. -/
def Raw.ofJson : Json → Raw
  | .scalar s => .scalar s
  | .array items => .array none true (Raw.ofItems items)
  | .object members => .record none true (Raw.ofMembers members)

def Raw.ofItems : List Json → List Raw
  | [] => []
  | v :: vs => Raw.ofJson v :: Raw.ofItems vs

def Raw.ofMembers : List (JsString × Json) → Properties
  | [] => []
  | (name, v) :: ms => (name, true, Raw.ofJson v) :: Raw.ofMembers ms

end

/-- Bytes as `JSON.stringify` sees them: each under its index. -/
def indexed (content : List UInt8) : List (JsString × Json) :=
  content.zipIdx.map fun byte => (decimal byte.2, .scalar (.number (.ofInt byte.1.toNat)))

mutual

/-- What `JSON.stringify` writes of a value. -/
def Value.json : Value → Json
  | .scalar s => .scalar s
  | .bytes content => .object (indexed content)
  | .array items => .array (Value.jsonItems items)
  | .record members => .object (Value.jsonMembers members)

def Value.jsonItems : List Value → List Json
  | [] => []
  | v :: vs => v.json :: Value.jsonItems vs

def Value.jsonMembers : List (JsString × Value) → List (JsString × Json)
  | [] => []
  | (name, v) :: ms => (name, v.json) :: Value.jsonMembers ms

end

def Value.str (s : JsString) : Value := .scalar (.string s)

/-! ## Properties -/

/-- What an own property holds; `undefined` where there is none. -/
def held (properties : Properties) (name : JsString) : Raw :=
  ((properties.lookup name).map Prod.snd).getD .undefined

/-- The properties with one of them set, in its place or last. -/
def put (name : JsString) (v : Raw) : Properties → Properties
  | [] => [(name, true, v)]
  | property :: properties =>
    if property.1 = name then (name, true, v) :: properties else property :: put name v properties

def Raw.isUndefined : Raw → Bool
  | .undefined => true
  | _ => false

/-! ## Byte members -/

def wrapBytes (content : List UInt8) : Value :=
  .record [(lit "encoding", .str (lit "base64")), (lit "data", .str (toBase64 content))]

/-- The text of a record that says it is base64. -/
def byteWrapper? : Raw → Option JsString
  | .record _ _ properties =>
    match held properties (lit "encoding"), held properties (lit "data") with
    | .scalar (.string encoding), .scalar (.string data) =>
      if encoding = lit "base64" then some data else none
    | _, _ => none
  | _ => none

def wrapMember : Value → Value
  | .bytes content => wrapBytes content
  | v => v

/-- A payload as it is written on a text port. -/
def wrapped (bytesAt : List JsString) : Value → Value
  | .record members =>
    if bytesAt = [] then .record members else .record (members.map fun m => (m.1, wrapMember m.2))
  | v => v

section
variable (transport : Transport) (maxBytes : Nat)

/-- The byte members of a payload, decoded where they are wrapped and checked where they are not;
and whether any was decoded. What is neither is left for the schema to refuse. -/
def translate : (bytesAt : List JsString) → Properties → Bool → Reading (Properties × Bool)
  | [], properties, translated => pure (properties, translated)
  | member :: bytesAt, properties, translated =>
    match transport, byteWrapper? (held properties member) with
    | .text, some data =>
      match base64Length data with
      | none => .error (invalid (member ++ lit " is not strict padded base64"))
      | some length => do
        refuse (maxBytes < length) (limited (member ++ lit " decodes to " ++ decimal length ++
          lit " bytes, over " ++ decimal maxBytes))
        match fromBase64 data with
        | none => .error (invalid (member ++ lit " is not strict padded base64"))
        | some content => translate bytesAt (put member (.bytes (.whole content)) properties) true
    | _, _ =>
      match held properties member with
      | .bytes view => do
        refuse (maxBytes < view.byteLength) (limited (member ++ lit " carries " ++
          decimal view.byteLength ++ lit " bytes, over " ++ decimal maxBytes))
        translate bytesAt properties translated
      | _ => translate bytesAt properties translated

/-- A payload as wire data. -/
def readPayload (bytesAt : List JsString) (budget : Option Budget) (raw : Raw) :
    Reading (Value × Nat) :=
  match raw with
  | .record _ true properties =>
    if bytesAt = [] then readValue budget bytesAt raw
    else do
      let (properties, translated) ← translate transport maxBytes bytesAt properties false
      readValue budget bytesAt (if translated then .record none true properties else raw)
  | _ => readValue budget bytesAt raw

end

/-! ## Envelopes -/

/-- A frame whose payload is not read yet. A call keeps what else its record holds: it means
nothing, but a bound on the whole frame charges it too. -/
inductive RawFrame where
  | call (members : Properties) (id : Nat) (method : JsString) (input : Raw)
  | result (id : Nat) (value : Raw)
  | error (id : Nat) (error : Raw)
  | event (name : JsString) (value : Raw)
  | fault (error : Raw)

/-- A positive safe integer. -/
def callId? : Raw → Option Nat
  | .scalar (.number x) => x.safeInteger?.bind fun i => if 0 < i then some i.toNat else none
  | _ => none

def string? : Raw → Option JsString
  | .scalar (.string s) => some s
  | _ => none

def eventNames : List JsString := [lit "state", lit "lines", lit "log"]

def eventName? (raw : Raw) : Option JsString := (string? raw).filter eventNames.contains

/-- What a member holds, where it is given at all. -/
def given (properties : Properties) (name : JsString) : Option Raw :=
  if (held properties name).isUndefined then none else some (held properties name)

/-- A record spread, with members of the envelope on top. -/
def spread (properties : Properties) (names : List JsString) : Properties :=
  names.foldl (fun members name => put name (held properties name) members)
    (properties.filter fun property => property.2.1)

section
variable (N : NumberText)

/-- A text parsed; what is no text, or no JSON, is `undefined`. -/
def parse (data : Raw) : Raw :=
  (((string? data).bind (Json.parse N)).map Raw.ofJson).getD .undefined

/-- The envelope of what arrived, or none when it is no frame at all. -/
def readFrame (data : Raw) (transport : Transport) : Option RawFrame :=
  match (match transport with | .text => parse N data | .clone => data) with
  | .record _ true properties => do
    let kind ← string? (held properties (lit "kind"))
    if kind = lit "call" then do
      let id ← callId? (held properties (lit "id"))
      let method ← string? (held properties (lit "method"))
      let input ← given properties (lit "input")
      pure (.call (spread properties [lit "kind", lit "id", lit "method", lit "input"]) id method input)
    else if kind = lit "result" then do
      let id ← callId? (held properties (lit "id"))
      let value ← given properties (lit "value")
      pure (.result id value)
    else if kind = lit "error" then do
      let id ← callId? (held properties (lit "id"))
      let error ← given properties (lit "error")
      pure (.error id error)
    else if kind = lit "event" then do
      let name ← eventName? (held properties (lit "name"))
      let value ← given properties (lit "value")
      pure (.event name value)
    else if kind = lit "fault" then do
      let error ← given properties (lit "error")
      pure (.fault error)
    else none
  | _ => none

/-- What a call's input may still charge once the rest of its frame has. -/
def requestBudget (limits : Budget) (members : Properties) : Reading (Budget × Nat) := do
  let (_, size) ← readValue (some limits) []
    (.record none true (put (lit "input") (.scalar .null) members))
  pure (⟨limits.maxValueBytes - (size - VALUE_CHARGE), limits.maxDepth - 1⟩, size)

namespace RawFrame

def kind : RawFrame → JsString
  | call _ _ _ _ => lit "call"
  | result _ _ => lit "result"
  | error _ _ => lit "error"
  | event _ _ => lit "event"
  | fault _ => lit "fault"

def payload : RawFrame → Raw
  | .call _ _ _ input => input
  | .result _ value => value
  | .error _ said => said
  | .event _ value => value
  | .fault said => said

/-- The envelope around a payload that was read. -/
def around (value : Value) : RawFrame → Value
  | call _ id method _ => .record [(lit "kind", .str (lit "call")), (lit "id", number id),
      (lit "method", .str method), (lit "input", value)]
  | result id _ => .record [(lit "kind", .str (lit "result")), (lit "id", number id),
      (lit "value", value)]
  | error id _ => .record [(lit "kind", .str (lit "error")), (lit "id", number id),
      (lit "error", value)]
  | event name _ => .record [(lit "kind", .str (lit "event")), (lit "name", .str name),
      (lit "value", value)]
  | fault _ => .record [(lit "kind", .str (lit "fault")), (lit "error", value)]
where
  number (id : Nat) : Value := .scalar (.number (.ofInt id))

end RawFrame

/-- A frame as the port carries it. A payload that is no wire data is a defect of the sender's
own, thrown and never sent as something else. -/
def writeFrame (frame : RawFrame) (transport : Transport) (bytesAt : List JsString) :
    Except JsString Raw :=
  match readValue none bytesAt frame.payload with
  | .error refused => .error
      (lit "the " ++ frame.kind ++ lit " frame is not wire data: " ++ refused.message)
  | .ok (value, _) =>
    match transport with
    | .clone => .ok (frame.around value).raw
    | .text =>
      .ok (.scalar (.string (stringifying.write N (frame.around (wrapped bytesAt value)).json)))

end

end Estoc.Wire
