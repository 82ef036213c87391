import Estoc.Daemon.Serving
import Estoc.Wire.Carried

/-!
# Calls between the two ends

A call as the view's end checks and writes it, and as the daemon's end reads and checks it. Both
hold the call to the same bounds, the whole frame's: the view charges the input it was given, the
daemon the payload that arrived, and what the view accepts the daemon takes, to the same value at
the same size.

The methods are the contract's: which members of an input and of a result carry bytes, and what
their schemas say of a value, the same at both ends.
-/

set_option linter.unusedSectionVars false

namespace Estoc.Daemon.Calls

open Json (lit NumberText)
open Utf16 (JsString)
open Checked (refuse bind_eq_ok refuse_bind_eq_ok)
open EventStore (decimal)
open Serving (Call Options)
open Estoc.Wire

/-! ## The contract -/

/-- The bounds a welcome advertises. -/
structure Limits where
  maxFrameBytes : Option Nat
  maxBackupBytes : Nat
  maxValueBytes : Nat
  maxDepth : Nat

def Limits.budget (limits : Limits) : Budget := ⟨limits.maxValueBytes, limits.maxDepth⟩

/-- A method: where bytes may be and what its input's schema makes of a value. Where a schema has a
member that carries bytes, a value it takes holds bytes there. -/
structure Method (I : Type) where
  inputBytes : List JsString
  resultBytes : List JsString
  input : Value → Except JsString I
  places : ∀ members i, (members.map Prod.fst).Nodup → input (.record members) = .ok i →
    ∀ m ∈ members, m.1 ∈ inputBytes → ∃ content, m.2 = .bytes content

section
variable {I : Type} (N : NumberText) (limits : Limits) (transport : Transport)

/-! ## The view's end -/

/-- Why a call is not sent: an answer of its own, or a defect that is thrown. -/
inductive Unsent where
  | refused (error : Refused)
  | thrown (message : JsString)

/-- What the view reads its input as, under what the rest of the frame leaves of the bounds. -/
def readCall (method : Method I) (id : Nat) (name : JsString) (input : Raw) :
    Reading (Value × Nat) := do
  let (budget, _) ← requestBudget limits.budget (callRecord id name (.scalar .null))
  readPayload .clone limits.maxBackupBytes method.inputBytes (some budget) input

/-- A text frame is within its bound, at its UTF-16 length and at its UTF-8 length. -/
def checkFrame (data : Raw) : Except Unsent Unit :=
  match limits.maxFrameBytes, string? data with
  | some max, some text =>
    refuse (max < text.length ∨ max < utf8Length text) (Unsent.refused (limited
      (lit "the frame is larger than " ++ decimal max ++ lit " bytes")))
  | _, _ => pure ()

/-- What is handed to the port for a call. -/
def send (method : Method I) (id : Nat) (name : JsString) (input : Raw) : Except Unsent Raw := do
  let (value, _) ← (readCall limits method id name input).mapError Unsent.refused
  let _ ← (method.input value).mapError fun message => Unsent.refused (invalid message)
  let data ← (writeFrame N (.call (callRecord id name (.scalar .null)) id name value.raw) transport
    method.inputBytes).mapError Unsent.thrown
  checkFrame limits data
  pure data

/-! ## The daemon's end -/

/-- What the daemon hands the method's handler, with the size it charged. -/
def readInput (method : Method I) (members : Properties) (input : Raw) : Reading (I × Nat) := do
  let (budget, _) ← requestBudget limits.budget members
  let (value, size) ←
    readPayload transport limits.maxBackupBytes method.inputBytes (some budget) input
  let parsed ← (method.input value).mapError invalid
  pure (parsed, size)

def codeText : Code → JsString
  | .invalidArgument => lit "InvalidArgument"
  | .resourceLimit => lit "ResourceLimit"

/-- The session's reading of the calls it receives. -/
def options (methods : JsString → Option (Method I)) (readHello : Raw → Option (List Nat))
    (maxQueuedFrames : Option Nat) : Options Raw where
  maxQueuedFrames := maxQueuedFrames
  maxFrameBytes := limits.maxFrameBytes
  isMethodName name := (methods name).isSome
  resultBytes name := ((methods name).map Method.resultBytes).getD []
  text data := match transport with
    | .text => string? data
    | .clone => none
  readHello := readHello
  readCall data :=
    match readFrame N data transport with
    | some (.call members id name input) => some ⟨id, name, (methods name).bind fun method =>
        match readInput limits transport method members input with
        | .error refused => some (codeText refused.code, refused.message)
        | .ok _ => none⟩
    | _ => none

/-! ## From one end to the other -/

variable {N limits transport}

theorem mapError_ok {ε ε' α : Type} {x : Except ε α} {f : ε → ε'} {a : α} :
    x.mapError f = .ok a ↔ x = .ok a := by
  cases x <;> simp [Except.mapError]

/-- The bounds charge the same for the rest of the frame at either end. -/
theorem requestBudget_callRecord (budget : Budget) (id : Nat) (name : JsString) (payload : Raw) :
    requestBudget budget (callRecord id name payload) =
      requestBudget budget (callRecord id name (.scalar .null)) := rfl

/-- The daemon holds a text frame to the bound the view held it to. -/
theorem tooLarge_of_checked {data : Raw} {u : Unit} {methods : JsString → Option (Method I)}
    {readHello : Raw → Option (List Nat)} {maxQueuedFrames : Option Nat}
    (h : checkFrame limits data = .ok u) :
    Serving.Session.tooLarge (options N limits transport methods readHello maxQueuedFrames) data =
      none := by
  cases transport with
  | clone => rfl
  | text =>
      cases htext : string? data <;> cases hmax : limits.maxFrameBytes <;>
        simp [Serving.Session.tooLarge, options, htext, hmax, checkFrame] at h ⊢
      omega

/-- What was read to be sent is wire data, and is written. -/
theorem send_not_thrown {method : Method I} {id : Nat} {name : JsString} {input : Raw}
    {message : JsString} (hdistinct : input.Distinct) :
    send N limits transport method id name input ≠ .error (.thrown message) := by
  intro h
  unfold send at h
  cases hcall : readCall limits method id name input with
  | error refused =>
      rw [hcall] at h
      cases h
  | ok read =>
      obtain ⟨value, size⟩ := read
      obtain ⟨_, _, hread⟩ := bind_eq_ok.mp hcall
      have hwired := (readValue_comes hdistinct (readPayload_clone hread).1).wired
      have hraw : readValue none method.inputBytes value.raw = .ok (value, value.weight) :=
        readValue_raw hwired.unbounded (by simp)
      have hpayload : readValue none method.inputBytes (Wire.RawFrame.call
          (callRecord id name (.scalar .null)) id name value.raw).payload =
            .ok (value, value.weight) := hraw
      obtain ⟨data, hdata⟩ := writeFrame_of_read N transport hpayload
      rw [hcall] at h
      change ((method.input value).mapError _ >>= _) = _ at h
      cases hinput : method.input value with
      | error message =>
          rw [hinput] at h
          cases h
      | ok parsed =>
          rw [hinput] at h
          change ((writeFrame N _ transport method.inputBytes).mapError _ >>= _) = _ at h
          rw [hdata] at h
          change (checkFrame limits data >>= _) = _ at h
          unfold checkFrame at h
          split at h
          · next max text hmax htext =>
              unfold refuse at h
              split at h
              · cases h
              · cases h
          · cases h

/-- A call that is read and not in flight is served. -/
theorem receive_of_readCall {Data : Type} {options : Options Data} {s : Serving.Session}
    {data : Data} {call : Call} {attaching : Serving.Session.Attaching}
    (hopen : s.closed = false ∧ s.ending = false ∧ s.negotiated = true)
    (hfits : Serving.Session.tooLarge options data = none)
    (hread : options.readCall data = some call) (hnew : call.id ∉ s.inFlight) :
    s.receive options data attaching = Serving.Session.serve options
      { s with inFlight := call.id :: s.inFlight, calls := s.calls ++ [call.id] } call
      attaching := by
  rw [Serving.Session.receive, hopen.1, hopen.2.1, hopen.2.2, hfits, hread]
  exact if_neg hnew

/-- What the view sends of a call: a frame within the daemon's bound that reads as that call, its
input to what the schema made of the value the view read, at the same size. -/
theorem sent_call_reads {method : Method I} {id : Nat} {name : JsString} {input data : Raw}
    {methods : JsString → Option (Method I)} (readHello : Raw → Option (List Nat))
    (maxQueuedFrames : Option Nat) (hpos : 0 < id) (hsafe : id < 2 ^ 53)
    (hdistinct : input.Distinct) (hmethod : methods name = some method)
    (hsend : send N limits transport method id name input = .ok data) :
    ∃ value size parsed members payload,
      readCall limits method id name input = .ok (value, size) ∧ method.input value = .ok parsed ∧
      readFrame N data transport = some (.call members id name payload) ∧
      readInput limits transport method members payload = .ok (parsed, size) ∧
      Serving.Session.tooLarge (options N limits transport methods readHello maxQueuedFrames) data =
        none ∧
      (options N limits transport methods readHello maxQueuedFrames).readCall data =
        some ⟨id, name, none⟩ := by
  obtain ⟨⟨value, size⟩, hcall, hsend⟩ := bind_eq_ok.mp hsend
  obtain ⟨parsed, hparsed, hsend⟩ := bind_eq_ok.mp hsend
  obtain ⟨written, hwrite, hsend⟩ := bind_eq_ok.mp hsend
  obtain ⟨_, hbound, hsend⟩ := bind_eq_ok.mp hsend
  obtain rfl := Except.ok.inj hsend
  have hcall := mapError_ok.mp hcall
  have hparsed := mapError_ok.mp hparsed
  have hwrite := mapError_ok.mp hwrite
  obtain ⟨⟨budget, charged⟩, hbudget, hread⟩ := bind_eq_ok.mp hcall
  have hcomes := readValue_comes hdistinct (readPayload_clone hread).1
  have hsize : size = value.weight := size_of_readValue hdistinct (readPayload_clone hread).1
  have hcarriable : Carriable method.inputBytes limits.maxBackupBytes value := by
    constructor
    · rintro members rfl m hm hmember
      have hnames : (members.map Prod.fst).Nodup := by
        cases hcomes.wired with
        | record _ hnames _ => exact hnames
      obtain ⟨content, hcontent⟩ := method.places members parsed hnames hparsed m hm hmember
      rw [hcontent]
      rfl
    · rintro members rfl
      exact fits_of_readPayload hdistinct hread
  have haddressed : (Wire.RawFrame.call (callRecord id name (.scalar .null)) id name
      value.raw).Addressed := ⟨hpos, hsafe⟩
  have hframe := arrives N haddressed hcomes.wired.unbounded
    (readValue_raw hcomes.wired.unbounded (by simp)) hwrite
  have hpayload := readPayload_carries hcomes.wired
    (fun b hb => hsize ▸ hcomes.within b hb) hcarriable transport
  have hinput : readInput limits transport method
      (callRecord id name (transport.carries method.inputBytes value))
      (transport.carries method.inputBytes value) = .ok (parsed, size) := by
    refine bind_eq_ok.mpr ⟨(budget, charged), ?_, ?_⟩
    · rw [requestBudget_callRecord]
      exact hbudget
    refine bind_eq_ok.mpr ⟨_, hpayload, bind_eq_ok.mpr ⟨parsed, mapError_ok.mpr hparsed, ?_⟩⟩
    rw [hsize]
    rfl
  refine ⟨value, size, parsed, _, _, hcall, hparsed, hframe, hinput, tooLarge_of_checked hbound, ?_⟩
  simp only [options, hframe, Wire.RawFrame.arrived, hmethod, Option.bind_some, hinput]

/-- A call the view sends is one the daemon takes: the frame is within its bound and reads as that
call, what its input comes to is what the schema makes of the value the view read, at the same size,
and a session that has no such call under way serves it and refuses nothing in it. -/
theorem calls_arrive {method : Method I} {id : Nat} {name : JsString} {input data : Raw}
    {methods : JsString → Option (Method I)} {s : Serving.Session}
    (readHello : Raw → Option (List Nat)) (maxQueuedFrames : Option Nat)
    (attaching : Serving.Session.Attaching) (hpos : 0 < id) (hsafe : id < 2 ^ 53)
    (hdistinct : input.Distinct) (hmethod : methods name = some method)
    (hsend : send N limits transport method id name input = .ok data)
    (hopen : s.closed = false ∧ s.ending = false ∧ s.negotiated = true) (hnew : id ∉ s.inFlight) :
    ∃ value size parsed members payload,
      readCall limits method id name input = .ok (value, size) ∧ method.input value = .ok parsed ∧
      readFrame N data transport = some (.call members id name payload) ∧
      readInput limits transport method members payload = .ok (parsed, size) ∧
      s.receive (options N limits transport methods readHello maxQueuedFrames) data attaching =
        Serving.Session.serve (options N limits transport methods readHello maxQueuedFrames)
          { s with inFlight := id :: s.inFlight, calls := s.calls ++ [id] } ⟨id, name, none⟩
          attaching := by
  obtain ⟨value, size, parsed, members, payload, hcall, hparsed, hframe, hinput, hfits, hread⟩ :=
    sent_call_reads readHello maxQueuedFrames hpos hsafe hdistinct hmethod hsend
  exact ⟨value, size, parsed, members, payload, hcall, hparsed, hframe, hinput,
    receive_of_readCall hopen hfits hread hnew⟩

end

/-! ## A backup to merge -/

def exampleLimits : Limits := ⟨none, 64, 512, 8⟩

/-- A method that takes a backup. -/
def mergeBackup : Method (List UInt8) where
  inputBytes := [lit "backup"]
  resultBytes := []
  input
    | .record members =>
      match members.lookup (lit "backup") with
      | some (.bytes content) => .ok content
      | _ => .error (lit "backup: Invalid input")
    | _ => .error (lit "input: Invalid input")
  places members i hnames h m hm hmember := by
    have hlookup := lookup_of_mem hnames hm
    rw [List.mem_singleton.mp hmember] at hlookup
    simp only [hlookup] at h
    split at h
    · next content heq => exact ⟨content, Option.some.inj heq⟩
    · cases h

/-- A backup beside a member that is not given. -/
def exampleInput : Raw :=
  .record (some 0) true [(lit "backup", true, .bytes exampleView), (lit "note", true, .undefined)]

def exampleMethods (name : JsString) : Option (Method (List UInt8)) :=
  if name = lit "mergeBackup" then some mergeBackup else none

theorem calls_arrive_example : ∃ data members payload size,
    send EventStore.patternNumbers exampleLimits .clone mergeBackup 1 (lit "mergeBackup")
        exampleInput = .ok data ∧
      readFrame EventStore.patternNumbers data .clone =
        some (.call members 1 (lit "mergeBackup") payload) ∧
      readInput exampleLimits .clone mergeBackup members payload = .ok ([1, 2, 3], size) := by
  obtain ⟨data, hsend⟩ : ∃ data, send EventStore.patternNumbers exampleLimits .clone mergeBackup 1
      (lit "mergeBackup") exampleInput = .ok data := ⟨_, rfl⟩
  have hdistinct : exampleInput.Distinct := by
    refine .record (by decide) ?_
    simp only [List.forall_mem_cons]
    exact ⟨.bytes _, .undefined, by simp⟩
  obtain ⟨value, size, parsed, members, payload, hcall, hparsed, hframe, hinput, -⟩ :=
    calls_arrive (fun _ => none) none ⟨[], none⟩ Nat.one_pos (by decide) hdistinct
      (show exampleMethods (lit "mergeBackup") = some mergeBackup from rfl) hsend
      (s := { Serving.Session.new with negotiated := true }) ⟨rfl, rfl, rfl⟩ List.not_mem_nil
  have hvalue : (value, size) = (.record [(lit "backup", .bytes [1, 2, 3])], 33) :=
    Except.ok.inj (hcall.symm.trans rfl)
  obtain ⟨rfl, rfl⟩ := Prod.mk.inj hvalue
  obtain rfl : parsed = [1, 2, 3] := Except.ok.inj (hparsed.symm.trans rfl)
  exact ⟨data, members, payload, _, hsend, hframe, hinput⟩

end Estoc.Daemon.Calls
