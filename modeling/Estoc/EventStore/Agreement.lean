import Mathlib.Data.Nat.Digits.Defs
import Estoc.EventStore.Envelope
import Estoc.EventStore.Row

/-!
# What was accepted is read back

Whatever `canonicalEnvelope` and `canonicalEvent` yield is a valid envelope in
canonical form with its own bytes and CID: `Accepted`. From that alone follow the three
agreements: the row of such an event decodes to it, the event is accepted again as
itself, and a draft that was accepted becomes one.
-/

set_option linter.unusedSectionVars false

namespace Estoc.EventStore

open Json (lit)
open Utf16 (JsString)
open Checked (refuse refuse_of_not refuse_bind_eq_ok bind_eq_ok)

section
variable {P : Packages}

/-! ## The canonical form of an envelope -/

theorem canonicalEventBytes_valid {e : EventEnvelope} (h : ValidEnvelope e) :
    canonicalEventBytes P e = .ok (canonicalBytes P (envelopeOf e)) :=
  canonicalize_ofJson h.ijson

/-- What the canonical bytes of an envelope spell. -/
theorem withCid_canonicalBytes {e : EventEnvelope} (h : ValidEnvelope e) :
    withCid P (canonicalBytes P (envelopeOf e)) = .ok { e.canonical with
      cid := eventCidOfBytes P (canonicalBytes P (envelopeOf e)) } := by
  rw [withCid, parseStrict_canonicalBytes h.ijson, Checked.ok_bind, Option.getD_some,
    canonical_envelopeOf, asEnvelope_envelopeOf]
  rfl

/-- An event as it is held, and its bytes. -/
structure Accepted (P : Packages) (event : Event) (bytes : List UInt8) : Prop where
  valid : ValidEnvelope event.toEventEnvelope
  canonical : event.toEventEnvelope.canonical = event.toEventEnvelope
  written : bytes = canonicalBytes P (envelopeOf event.toEventEnvelope)
  cid : event.cid = eventCidOfBytes P bytes

/-- A valid envelope, put through its canonical bytes, is accepted. -/
theorem ValidEnvelope.held {e : EventEnvelope} (h : ValidEnvelope e) :
    ∃ event bytes, canonicalEventBytes P e = .ok bytes ∧ withCid P bytes = .ok event ∧
      event.toEventEnvelope = e.canonical ∧ Accepted P event bytes := by
  have hbytes : canonicalBytes P (envelopeOf e) = canonicalBytes P (envelopeOf e.canonical) := by
    rw [← canonical_envelopeOf, canonicalBytes_canonical]
  have hcanonical : e.canonical.canonical = e.canonical := by
    rw [EventEnvelope.canonical, EventEnvelope.canonical, Json.canonical_canonical]
  exact ⟨_, _, canonicalEventBytes_valid h, withCid_canonicalBytes h, rfl, h.canonical,
    hcanonical, hbytes, rfl⟩

theorem validateEnvelope_valid {value : JsValue} {e : EventEnvelope}
    (h : validateEnvelope P value = .ok e) : ValidEnvelope e := by
  rw [validateEnvelope, bind_eq_ok] at h
  obtain ⟨_, _, h⟩ := h
  rw [bind_eq_ok] at h
  obtain ⟨_, _, h⟩ := h
  exact checkedEnvelope_valid h

theorem validateEvent_valid {value : JsValue} {event : Event}
    (h : validateEvent P value = .ok event) : ValidEnvelope event.toEventEnvelope := by
  rw [validateEvent, bind_eq_ok] at h
  obtain ⟨_, _, h⟩ := h
  rw [bind_eq_ok] at h
  obtain ⟨_, _, h⟩ := h
  rw [bind_eq_ok] at h
  obtain ⟨e, he, h⟩ := h
  rw [bind_eq_ok] at h
  obtain ⟨_, _, h⟩ := h
  rw [bind_eq_ok] at h
  obtain ⟨_, _, h⟩ := h
  rw [refuse_bind_eq_ok] at h
  cases h.2
  exact checkedEnvelope_valid he

theorem canonicalEnvelope_accepted {value : JsValue} {event : Event} {bytes : List UInt8}
    (h : canonicalEnvelope P value = .ok (event, bytes)) : Accepted P event bytes := by
  rw [canonicalEnvelope, bind_eq_ok] at h
  obtain ⟨e, he, h⟩ := h
  obtain ⟨event', bytes', hbytes, hevent, _, hheld⟩ := (validateEnvelope_valid he).held (P := P)
  rw [hbytes, Checked.ok_bind, hevent, Checked.ok_bind] at h
  cases h
  exact hheld

theorem canonicalEvent_accepted {value : JsValue} {event : Event} {bytes : List UInt8}
    (h : canonicalEvent P value = .ok (event, bytes)) : Accepted P event bytes := by
  rw [canonicalEvent, bind_eq_ok] at h
  obtain ⟨e, he, h⟩ := h
  obtain ⟨event', bytes', hbytes, hevent, _, hheld⟩ := (validateEvent_valid he).held (P := P)
  rw [hbytes, Checked.ok_bind, hevent, Checked.ok_bind] at h
  cases h
  exact hheld

/-! ## Accepted again -/

theorem exactly_of_names {members : List (JsString × JsValue)} {fields : List JsString}
    (hall : (fields.all fun field => JsValue.hasOwn members field) = true)
    (hlength : members.length = fields.length) : exactly members fields = .ok () := by
  have hnone : (fields.find? fun field => !JsValue.hasOwn members field) = none := by
    simpa using hall
  rw [exactly, present, hnone]
  simp only [Checked.pure_eq_ok, Checked.ok_bind]
  exact refuse_of_not (not_not.mpr hlength)

/-- An accepted event is canonical: accepting it once more yields itself. -/
theorem Accepted.canonicalEvent {event : Event} {bytes : List UInt8}
    (h : Accepted P event bytes) : canonicalEvent P event.value = .ok (event, bytes) := by
  have hchecked : checkedEnvelope P event.members = .ok event.toEventEnvelope :=
    checkedEnvelope_of_valid h.valid rfl rfl rfl rfl rfl
  have hraw : isEventCid event.cid = true := by
    rw [h.cid]
    exact isRawCid_rawCidFromDigest _
  have hcid : checkedString isEventCid (JsValue.get event.members CID)
      (lit "cid is not a canonical raw DASL CID") = .ok event.cid :=
    checkedString_eq_ok.mpr ⟨rfl, hraw⟩
  have hbytes : canonicalEventBytes P event.toEventEnvelope = .ok bytes := by
    rw [h.written]
    exact canonicalEventBytes_valid h.valid
  have hvalid : validateEvent P event.value = .ok event := by
    rw [validateEvent, Event.value, objectMembers_eq_ok.mpr rfl, Checked.ok_bind,
      exactly_of_names rfl rfl, Checked.ok_bind, hchecked, Checked.ok_bind, hcid, Checked.ok_bind,
      eventCidOf, hbytes, Checked.ok_bind, Checked.pure_eq_ok, Checked.ok_bind,
      refuse_of_not (not_not.mpr h.cid)]
    rfl
  have hheld : withCid P bytes = .ok event := by
    have hwith := withCid_canonicalBytes (P := P) h.valid
    rw [← h.written, h.canonical, ← h.cid] at hwith
    exact hwith
  rw [EventStore.canonicalEvent, hvalid, Checked.ok_bind, hbytes, Checked.ok_bind, hheld]
  rfl

/-! ## Read back -/

theorem checkText_of_plain {index : Nat} {s : JsString} (h : ∀ u ∈ s, PlainUnit u) :
    checkText index s = .ok s := by
  have hnul : (0 : UInt16) ∉ s := fun hmem => (h 0 hmem).2 rfl
  have hlone := loneSurrogate_of_admitted (forbiddenIn_plain h)
  rw [checkText, refuse_of_not hnul, Checked.ok_bind, refuse_of_not (by simp [hlone])]
  rfl

theorem decodeColumn_encode {s column : JsString} (h : forbiddenIn s false = none) :
    decodeColumn (Utf16.encodeUtf8 s) column = .ok s := by
  rw [decodeColumn, Utf16.decodeUtf8_encodeUtf8 (loneSurrogate_of_admitted h)]
  rfl

theorem checkColumn_encode {column s : JsString} (h : forbiddenIn s false = none) :
    checkColumn P column (.bytes (Utf16.encodeUtf8 s)) s = .ok () := by
  rw [checkColumn, decodeColumn_encode h, Checked.ok_bind]
  exact refuse_of_not (not_not.mpr rfl)

theorem chars_plain {s : JsString} (h : ∀ u ∈ s, PlainUnit u) :
    Utf16.chars s = s.map fun u => Char.ofNat u.toNat := by
  induction s with
  | nil => rfl
  | cons u s ih =>
      obtain ⟨hu, hs⟩ := List.forall_mem_cons.mp h
      have hsur : Utf16.isSurrogate u.toNat = false := Utf16.isSurrogate_of_lt (by have := hu.1; omega)
      obtain ⟨hhigh, hlow⟩ := Utf16.not_surrogate_unit hsur
      rw [Utf16.chars_cons_single hhigh, ih hs, Utf16.unitChar, hhigh, hlow]
      rfl

/-- The UTF-8 of plain text has a byte for each unit. -/
theorem encodeUtf8_plain {s : JsString} (h : ∀ u ∈ s, PlainUnit u) :
    Utf16.encodeUtf8 s = s.map fun u => UInt8.ofNat u.toNat := by
  rw [Utf16.encodeUtf8, chars_plain h, List.flatMap_map, List.map_eq_flatMap]
  refine List.flatMap_congr fun u hu => ?_
  have hlt := (h u hu).1
  have hval : (Char.ofNat u.toNat).val.toNat = u.toNat := Utf16.toNat_ofNat_char (by omega)
  rw [String.utf8EncodeChar]
  simp only [hval]
  rw [if_pos (by omega)]

/-- The UTF-8 of plain text has no NUL. -/
theorem nul_notMem_encode {s : JsString} (h : ∀ u ∈ s, PlainUnit u) :
    (0 : UInt8) ∉ Utf16.encodeUtf8 s := by
  rw [encodeUtf8_plain h]
  intro hmem
  obtain ⟨u, hu, hzero⟩ := List.mem_map.mp hmem
  obtain ⟨hlt, hne⟩ := h u hu
  refine hne (UInt16.toNat_inj.mp ?_)
  have hnat := congrArg UInt8.toNat hzero
  rw [UInt8.toNat_ofNat_of_lt' (show u.toNat < 256 by omega)] at hnat
  exact hnat

theorem decodeText_encode {s column : JsString} (h : ∀ u ∈ s, PlainUnit u) :
    decodeText (Utf16.encodeUtf8 s) column = .ok s := by
  rw [decodeText, refuse_of_not (nul_notMem_encode h), Checked.ok_bind,
    decodeColumn_encode (forbiddenIn_plain h)]

/-- The row of an accepted event. -/
def rowOf (rowid : Nat) (event : Event) (bytes : List UInt8) : EventRow :=
  ⟨rowid, .bytes (Utf16.encodeUtf8 event.cid), .bytes (Utf16.encodeUtf8 event.at_),
    .bytes (Utf16.encodeUtf8 event.author), .bytes (Utf16.encodeUtf8 event.type), .bytes bytes⟩

theorem Accepted.plain_cid {event : Event} {bytes : List UInt8} (h : Accepted P event bytes) :
    ∀ u ∈ event.cid, PlainUnit u := by
  rw [h.cid]
  exact plain_text _

theorem Accepted.rawCid {event : Event} {bytes : List UInt8} (h : Accepted P event bytes) :
    isEventCid event.cid = true := by
  rw [h.cid]
  exact isRawCid_rawCidFromDigest _

theorem Accepted.plain_at {event : Event} {bytes : List UInt8} (h : Accepted P event bytes) :
    ∀ u ∈ event.at_, PlainUnit u := plain_of_canonicalAt h.valid.at_

theorem Accepted.insertEvent {event : Event} {bytes : List UInt8} (h : Accepted P event bytes)
    (rowid : Nat) : insertEvent rowid event bytes = .ok (rowOf rowid event bytes) := by
  rw [EventStore.insertEvent, checkText_of_plain h.plain_cid, Checked.ok_bind,
    checkText_of_plain h.plain_at, Checked.ok_bind,
    checkText_of_plain (plain_of_authorId h.valid.author)]
  rfl

/-- The row of an accepted event decodes to it, hashed or not. -/
theorem Accepted.decodeEventRow {event : Event} {bytes : List UInt8} (h : Accepted P event bytes)
    (rowid : Nat) (hash : Bool) :
    decodeEventRow P (rowOf rowid event bytes) hash = .event event := by
  have hparse : parseStrict P bytes false = .ok (some (envelopeOf event.toEventEnvelope)) := by
    rw [h.written, parseStrict_canonicalBytes h.valid.ijson, canonical_envelopeOf, h.canonical]
  have hobject : JsValue.ofJson (envelopeOf event.toEventEnvelope) =
      .object [(AT_FIELD, .str event.at_), (AUTHOR, .str event.author),
        (DATA, JsValue.ofJson event.data), (ROOTS, .array (event.roots.map .str)),
        (TYPE, .str event.type)] := by
    rw [envelopeOf, JsValue.ofJson]
    simp only [JsValue.ofMembers]
    rw [JsValue.ofJson, ofItems_strs]
    simp only [jsonStr, JsValue.ofJson, JsValue.str]
  have hvalidate : validateEnvelope P (JsValue.ofJson (envelopeOf event.toEventEnvelope)) =
      .ok event.toEventEnvelope := by
    rw [validateEnvelope, hobject, objectMembers_eq_ok.mpr rfl, Checked.ok_bind,
      exactly_of_names rfl rfl, Checked.ok_bind]
    exact checkedEnvelope_of_valid h.valid rfl rfl rfl rfl rfl
  have hbytes : canonicalEventBytes P event.toEventEnvelope = .ok bytes := by
    rw [h.written]
    exact canonicalEventBytes_valid h.valid
  have hcid : isEventCid event.cid = true := by
    rw [h.cid]
    exact isRawCid_rawCidFromDigest _
  obtain ⟨hat, hauthor, _, _, htype⟩ := ijson_envelopeOf.mp h.valid.ijson
  have hdecode : decodeBytes P (rowOf rowid event bytes) bytes hash = .ok event := by
    rw [decodeBytes, hparse, Checked.ok_bind]
    simp only [Option.map_some, Option.getD_some, rowOf]
    rw [hvalidate, Checked.ok_bind, hbytes, Checked.ok_bind, refuse_of_not (not_not.mpr rfl),
      Checked.ok_bind, decodeText_encode h.plain_cid, Checked.ok_bind,
      refuse_of_not (by simp [hcid]), Checked.ok_bind,
      refuse_of_not (fun hne => hne.2 h.cid), Checked.ok_bind, checkColumn_encode hat,
      Checked.ok_bind, checkColumn_encode hauthor, Checked.ok_bind, checkColumn_encode htype]
    rfl
  rw [EventStore.decodeEventRow]
  simp only [rowOf]
  rw [rowOf] at hdecode
  rw [hdecode]

/-! ## Drafts -/

/-- What a validated draft is. -/
structure ValidDraft (d : Draft) : Prop where
  type : d.type ≠ []
  roots : ∀ r ∈ d.roots, isRawCid r = true
  data : ∃ members, d.data = .object members
  ijson : IJson 1 d.data
  clean : forbiddenIn d.type false = none

theorem draftRoots_raw {roots : JsValue} {checked : List JsString}
    (h : draftRoots P roots = .ok checked) : ∀ r ∈ checked, isRawCid r = true := by
  rw [draftRoots] at h
  split at h
  · cases h
    exact fun _ h => (by cases h)
  · exact (checkedRoots_eq_ok h).2

theorem validateDraft_valid {value : JsValue} {d : Draft} (h : validateDraft P value = .ok d) :
    ValidDraft d := by
  rw [validateDraft, bind_eq_ok] at h
  obtain ⟨members, _, h⟩ := h
  rw [bind_eq_ok] at h
  obtain ⟨_, _, h⟩ := h
  simp only at h
  rw [refuse_bind_eq_ok, bind_eq_ok] at h
  obtain ⟨_, type, htype, h⟩ := h
  rw [bind_eq_ok] at h
  obtain ⟨roots, hroots, h⟩ := h
  rw [bind_eq_ok] at h
  obtain ⟨data, _, h⟩ := h
  rw [bind_eq_ok] at h
  obtain ⟨j, hplain, h⟩ := h
  cases h
  have hnames : [TYPE, ROOTS, DATA].Nodup := by decide
  obtain ⟨hijson, added, rfl, hadded⟩ := plain_object hplain hnames
  cases hadded with | @cons _ a _ _ ha hadded =>
  cases hadded with | @cons _ b _ _ hb hadded =>
  cases hadded with | @cons _ c _ _ hc hadded =>
  cases hadded
  obtain ⟨ha, _, ha'⟩ := ha
  obtain ⟨hb, _, hb'⟩ := hb
  obtain ⟨hc, _, hc'⟩ := hc
  obtain ⟨result, hresult, _⟩ := admit_object hc'
  have hobject : Json.object [a, b, c] = .object [(TYPE, jsonStr type),
      (ROOTS, .array (roots.map jsonStr)), (DATA, .object result)] := by
    congr
    · exact Prod.ext ha (admit_str ha')
    · exact Prod.ext hb (admit_strs hb')
    · exact Prod.ext hc hresult
  have hdraft : asDraft (.object [(TYPE, jsonStr type), (ROOTS, .array (roots.map jsonStr)),
      (DATA, .object result)]) = ⟨type, roots, .object result⟩ := by
    have hread : asStrings (some (.array (roots.map jsonStr))) = roots := map_asString roots
    exact congrArg (fun r => Draft.mk type r (.object result)) hread
  rw [hobject] at hijson ⊢
  rw [hdraft]
  cases hijson with
  | object _ _ _ hvalues =>
      simp only [List.forall_mem_cons] at hvalues
      obtain ⟨hclean, _, hdata, _⟩ := hvalues
      refine ⟨by simpa using (checkedString_eq_ok.mp htype).2, draftRoots_raw hroots,
        ⟨_, rfl⟩, hdata, ?_⟩
      cases hclean with | string h => exact h

/-- A validated draft becomes an event with any valid `at` and `author`. -/
theorem ValidDraft.canonicalEnvelope {d : Draft} (h : ValidDraft d) {at_ author : JsString}
    (hat : isCanonicalAt at_ = true) (hauthor : isAuthorId author = true) :
    ∃ event bytes, canonicalEnvelope P (d.envelope at_ author) = .ok (event, bytes) := by
  have hvalid : ValidEnvelope ⟨at_, author, d.type, d.roots, d.data⟩ :=
    .of_fields hat hauthor h.type h.roots h.data h.ijson h.clean
  have hchecked : validateEnvelope P (d.envelope at_ author) =
      .ok ⟨at_, author, d.type, d.roots, d.data⟩ := by
    rw [validateEnvelope, Draft.envelope, objectMembers_eq_ok.mpr rfl, Checked.ok_bind,
      exactly_of_names rfl rfl, Checked.ok_bind]
    exact checkedEnvelope_of_valid hvalid rfl rfl rfl rfl rfl
  obtain ⟨event, bytes, hbytes, hevent, _, _⟩ := hvalid.held (P := P)
  refine ⟨event, bytes, ?_⟩
  rw [EventStore.canonicalEnvelope, hchecked, Checked.ok_bind, hbytes, Checked.ok_bind, hevent]
  rfl

end

/-! ## The agreement -/

/-- Whatever the store accepts is read back as accepted, and accepted again as itself;
whatever a draft's check lets through can be appended. -/
theorem event_format_agrees (P : Packages) :
    (∀ value event bytes, canonicalEnvelope P value = .ok (event, bytes) ∨
        canonicalEvent P value = .ok (event, bytes) →
      (∀ rowid, ∃ row, insertEvent rowid event bytes = .ok row ∧
        ∀ hash, decodeEventRow P row hash = .event event) ∧
      canonicalEvent P event.value = .ok (event, bytes)) ∧
    ∀ value draft, validateDraft P value = .ok draft →
      ∀ at_ author, isCanonicalAt at_ = true → isAuthorId author = true →
        ∃ event bytes, canonicalEnvelope P (draft.envelope at_ author) = .ok (event, bytes) := by
  refine ⟨fun value event bytes h => ?_, fun value draft h at_ author hat hauthor => ?_⟩
  · have haccepted : Accepted P event bytes := by
      rcases h with h | h
      · exact canonicalEnvelope_accepted h
      · exact canonicalEvent_accepted h
    exact ⟨fun rowid => ⟨_, haccepted.insertEvent rowid, haccepted.decodeEventRow rowid⟩,
      haccepted.canonicalEvent⟩
  · exact (validateDraft_valid h).canonicalEnvelope hat hauthor

/-! ## Packages that are as assumed -/

/-- The decimal digits of a number, the lowest first, and a zero behind them. -/
def lowDigits (n : Nat) : JsString :=
  (Nat.digits 10 n ++ [0]).map fun d => UInt16.ofNat (0x30 + d)

theorem lowDigits_ne_nil (n : Nat) : lowDigits n ≠ [] := by simp [lowDigits]

theorem digit_lt {n d : Nat} (h : d ∈ Nat.digits 10 n ++ [0]) : d < 10 := by
  rcases List.mem_append.mp h with h | h
  · exact Nat.digits_lt_base (by omega) h
  · rw [List.mem_singleton.mp h]
    omega

theorem toNat_digit {d : Nat} (h : d < 10) : (UInt16.ofNat (0x30 + d)).toNat = 0x30 + d :=
  UInt16.toNat_ofNat_of_lt' (show 0x30 + d < 65536 by omega)

theorem isDigit_lowDigits (n : Nat) : ∀ u ∈ lowDigits n, Json.isDigit u = true := by
  intro u hu
  obtain ⟨d, hd, rfl⟩ := List.mem_map.mp hu
  have hlt := digit_lt hd
  simp only [Json.isDigit, toNat_digit hlt, Bool.and_eq_true, decide_eq_true_eq]
  omega

def readLow (s : JsString) : Nat := Nat.ofDigits 10 (s.map fun u => u.toNat - 0x30)

theorem readLow_lowDigits (n : Nat) : readLow (lowDigits n) = n := by
  have hback : (Nat.digits 10 n ++ [0]).map (fun d => (UInt16.ofNat (0x30 + d)).toNat - 0x30) =
      Nat.digits 10 n ++ [0] := by
    refine (List.map_congr_left fun d hd => ?_).trans (List.map_id _)
    rw [toNat_digit (digit_lt hd), id]
    omega
  rw [readLow, lowDigits, List.map_map]
  exact (congrArg (Nat.ofDigits 10) hback).trans (by
    rw [Nat.ofDigits_append, Nat.ofDigits_digits]
    simp)

/-- A spelling: `1e` and the digits of the pattern. -/
def patternText (x : Binary64) : JsString := lit "1e" ++ lowDigits x.unsigned.bits

theorem isNumber_patternText (x : Binary64) : Json.isNumber (patternText x) = true := by
  obtain ⟨u, rest, hu⟩ := List.exists_cons_of_ne_nil (lowDigits_ne_nil x.unsigned.bits)
  have hdigits := isDigit_lowDigits x.unsigned.bits
  rw [hu] at hdigits
  have hhead := hdigits u List.mem_cons_self
  have hplus : u ≠ Json.plus := by
    intro h
    rw [h] at hhead
    exact absurd hhead (by decide)
  have hminus : u ≠ Json.minus := by
    intro h
    rw [h] at hhead
    exact absurd hhead (by decide)
  have hexp : Json.isExponent (0x65 :: u :: rest) = true := by
    have hsign : ((u :: rest).head? == some Json.plus || (u :: rest).head? == some Json.minus) =
        false := by simp [hplus, hminus]
    have hmark : Json.isExponentMark 0x65 = true := by decide
    simp only [Json.isExponent, hsign, Bool.false_eq_true, if_false, hmark,
      List.all_eq_true.mpr hdigits]
    rfl
  have htext : patternText x = 0x31 :: 0x65 :: u :: rest := by
    rw [patternText, hu]
    rfl
  have htake : (0x31 :: 0x65 :: u :: rest).takeWhile Json.isDigit = [0x31] := rfl
  have hdrop : (0x31 :: 0x65 :: u :: rest).dropWhile Json.isDigit = 0x65 :: u :: rest := rfl
  have hsign : ((0x31 :: 0x65 :: u :: rest).head? == some Json.minus) = false := rfl
  have hdot : ((0x65 :: u :: rest).head? == some Json.dot) = false := rfl
  simp only [htext, Json.isNumber, hsign, Bool.false_eq_true, if_false, htake, hdrop,
    Json.isFraction, hdot, hexp]
  rfl

def patternNumbers : Json.NumberText where
  text := patternText
  value s := Binary64.ofBits (readLow (s.drop 2))
  isNumber_text x _ := isNumber_patternText x
  value_text x _ := by
    have hdrop : (patternText x).drop 2 = lowDigits x.unsigned.bits := rfl
    rw [hdrop, readLow_lowDigits, Binary64.ofBits_bits]

/-- The scanner's calls for the things in a text. -/
def visitOf : Token → Visit
  | .literal s => .literalValue s 0 0
  | .arrayBegin => .arrayBegin 0
  | .arrayEnd => .arrayEnd
  | .objectBegin => .objectBegin 0
  | .property name => .objectProperty name 0
  | .objectEnd => .objectEnd

theorem token_visitOf (t : Token) : (visitOf t).token = some t := by cases t <;> rfl

def readVisits (text : JsString) : List Visit :=
  match Json.readText patternNumbers text with
  | some ts => ts.map visitOf
  | none => [.error .invalidSymbol 0]

/-- The digest of the example's canonical bytes, given for all. -/
def exampleDigest : Digest :=
  ⟨[0xD6, 0x62, 0xC6, 0xDF, 0x43, 0x2E, 0x1E, 0x3E, 0x82, 0x5F, 0x75, 0xB3, 0x98, 0xFB, 0x6F,
    0x2A, 0x1C, 0x10, 0x70, 0xF5, 0x39, 0x0B, 0xDF, 0xB6, 0xBE, 0xA3, 0x70, 0xFD, 0x11, 0xB6,
    0x7D, 0xCA], rfl⟩

def examplePackages : Packages where
  numbers := patternNumbers
  serialize := Json.canonicalText patternNumbers
  serialize_eq _ _ := rfl
  visit := readVisits
  visit_tokens text ts h := by
    rw [readVisits, h, List.map_map]
    exact List.map_congr_left fun t _ => token_visitOf t
  visit_error text h := by
    rw [readVisits, h]
    exact List.mem_cons_self
  sha256 _ := exampleDigest

/-- The worked example's draft. -/
def exampleDraft : JsValue :=
  .object [(TYPE, .str (lit "example.note")), (DATA, .object [(lit "text", .str (lit "hello"))])]

def exampleAt : JsString := lit "2026-09-25T00:00:00.000Z"
def exampleAuthor : JsString := lit "019b0000-0000-7000-8000-000000000001"

theorem exampleDraft_valid : validateDraft examplePackages exampleDraft =
    .ok ⟨lit "example.note", [], .object [(lit "text", jsonStr (lit "hello"))]⟩ := rfl

theorem exampleAt_canonical : isCanonicalAt exampleAt = true := by decide +kernel

theorem exampleAuthor_valid : isAuthorId exampleAuthor = true := by decide +kernel

/-- The example's draft is appended, and its event read back. -/
theorem event_format_agrees_example :
    ∃ event bytes, canonicalEnvelope examplePackages
        (Draft.envelope ⟨lit "example.note", [], .object [(lit "text", jsonStr (lit "hello"))]⟩
          exampleAt exampleAuthor) = .ok (event, bytes) ∧
      (∃ row, insertEvent 1 event bytes = .ok row ∧
        decodeEventRow examplePackages row true = .event event) ∧
      canonicalEvent examplePackages event.value = .ok (event, bytes) := by
  obtain ⟨hread, hdraft⟩ := event_format_agrees examplePackages
  obtain ⟨event, bytes, h⟩ :=
    hdraft _ _ exampleDraft_valid _ _ exampleAt_canonical exampleAuthor_valid
  obtain ⟨hrow, hagain⟩ := hread _ event bytes (.inl h)
  obtain ⟨row, hinsert, hdecode⟩ := hrow 1
  exact ⟨event, bytes, h, ⟨row, hinsert, hdecode true⟩, hagain⟩

end Estoc.EventStore
