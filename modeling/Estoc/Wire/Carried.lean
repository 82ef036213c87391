import Estoc.EventStore.Agreement
import Estoc.Wire.Frames
import Estoc.Wire.Reading

/-!
# What a port carries

A frame that was written is read as it was meant, over a text port and over a structured-clone port
alike: the same envelope, and a payload that is the value the writer read, at the same size and
under any bounds that size is within. On a text port bytes go as records of base64 and come back
through the payload's property descriptors, before anything is charged; what only looks like such a
record stays what it is, as long as it does not stand where bytes may.
-/

set_option linter.unusedSectionVars false

namespace Estoc.Wire

open Json (lit NumberText)
open Utf16 (JsString)
open Checked (refuse bind_eq_ok refuse_bind_eq_ok)
open EventStore.JsValue (stringifying)

/-! ## Values with no bytes -/

/-- Data as JSON has it: no bytes anywhere. -/
inductive Plain : Value → Prop where
  | scalar {s : Scalar} : Json.readable s → Plain (.scalar s)
  | array {items : List Value} : (∀ v ∈ items, Plain v) → Plain (.array items)
  | record {members : List (JsString × Value)} : (members.map Prod.fst).Nodup →
      (∀ m ∈ members, Plain m.2) → Plain (.record members)

theorem Value.rawItems_eq_map (vs : List Value) : rawItems vs = vs.map raw := by
  induction vs with
  | nil => rfl
  | cons v vs ih => rw [rawItems, ih, List.map_cons]

theorem Value.rawMembers_eq_map (ms : List (JsString × Value)) :
    rawMembers ms = ms.map fun m => (m.1, true, m.2.raw) := by
  induction ms with
  | nil => rfl
  | cons m ms ih => rw [rawMembers, ih, List.map_cons]

theorem Value.jsonItems_eq_map (vs : List Value) : jsonItems vs = vs.map json := by
  induction vs with
  | nil => rfl
  | cons v vs ih => rw [jsonItems, ih, List.map_cons]

theorem Value.jsonMembers_eq_map (ms : List (JsString × Value)) :
    jsonMembers ms = ms.map fun m => (m.1, m.2.json) := by
  induction ms with
  | nil => rfl
  | cons m ms ih => rw [jsonMembers, ih, List.map_cons]

theorem Raw.ofItems_eq_map (vs : List Json) : ofItems vs = vs.map ofJson := by
  induction vs with
  | nil => rfl
  | cons v vs ih => rw [ofItems, ih, List.map_cons]

theorem Raw.ofMembers_eq_map (ms : List (JsString × Json)) :
    ofMembers ms = ms.map fun m => (m.1, true, ofJson m.2) := by
  induction ms with
  | nil => rfl
  | cons m ms ih => rw [ofMembers, ih, List.map_cons]

/-- Parsed again, the JSON of such a value is the value. -/
theorem Plain.ofJson {v : Value} (h : Plain v) : Raw.ofJson v.json = v.raw := by
  induction h with
  | scalar _ => rfl
  | @array items _ ih =>
      rw [Value.json, Raw.ofJson, Value.raw, Raw.ofItems_eq_map, Value.jsonItems_eq_map,
        Value.rawItems_eq_map, List.map_map]
      exact congrArg _ (List.map_congr_left ih)
  | @record members _ _ ih =>
      rw [Value.json, Raw.ofJson, Value.raw, Raw.ofMembers_eq_map, Value.jsonMembers_eq_map,
        Value.rawMembers_eq_map, List.map_map]
      refine congrArg _ (List.map_congr_left fun m hm => ?_)
      simp [ih m hm]

theorem Plain.readable {v : Value} (h : Plain v) : Json.Readable v.json := by
  induction h with
  | scalar hs => exact .scalar hs
  | @array items _ ih =>
      rw [Value.json, Value.jsonItems_eq_map]
      exact .array (List.forall_mem_map.mpr ih)
  | @record members _ _ ih =>
      rw [Value.json, Value.jsonMembers_eq_map]
      exact .object (List.forall_mem_map.mpr ih)

theorem Plain.distinct {v : Value} (h : Plain v) : v.json.Distinct := by
  induction h with
  | scalar _ => exact .scalar _
  | @array items _ ih =>
      rw [Value.json, Value.jsonItems_eq_map]
      exact .array (List.forall_mem_map.mpr ih)
  | @record members hnames _ ih =>
      rw [Value.json, Value.jsonMembers_eq_map]
      refine .object ?_ (List.forall_mem_map.mpr ih)
      rw [List.map_map]
      exact hnames

/-- A text that was written is parsed to what it was written of. -/
theorem Plain.parse (N : NumberText) {v : Value} (h : Plain v) :
    parse N (.scalar (.string (stringifying.write N v.json))) = v.raw := by
  have hparsed : Json.parse N (stringifying.write N v.json) = some v.json :=
    Json.parse_of_readText (Json.Quoting.readText_write h.readable) h.distinct
  rw [Wire.parse, string?, Option.bind_some, hparsed, Option.map_some, Option.getD_some, h.ofJson]

section
variable {budget : Option Budget} {bytesAt : List JsString}

/-- Below the members of the root there are no bytes, and nowhere if no member may hold them. -/
theorem Wired.plain {depth : Nat} {slot : Bool} {v : Value} (h : Wired budget bytesAt depth slot v)
    (hslot : slot = false) (hdepth : 2 ≤ depth ∨ 1 ≤ depth ∧ bytesAt = []) : Plain v := by
  induction h with
  | scalar _ hs => exact .scalar hs
  | bytes _ => cases hslot
  | array _ _ ih => exact .array fun v hv => ih v hv rfl (.inl (by omega))
  | @record depth slot members _ hnames _ ih =>
      refine .record hnames fun m hm => ih m hm ?_ (.inl (by omega))
      rcases hdepth with hdepth | hnone
      · simp [show ¬depth = 1 by omega]
      · simp [hnone.2]

theorem plain_str (s : JsString) : Plain (.str s) := .scalar trivial

theorem plain_wrapBytes (content : List UInt8) : Plain (wrapBytes content) := by
  refine .record (show [lit "encoding", lit "data"].Nodup by decide) ?_
  simp only [List.forall_mem_cons]
  exact ⟨plain_str _, plain_str _, by simp⟩

/-- What is written on a text port has no bytes. -/
theorem Wired.wrapped {v : Value} (h : Wired budget bytesAt 1 false v) :
    Plain (wrapped bytesAt v) := by
  cases h with
  | scalar _ hs => exact .scalar hs
  | array _ hitems => exact .array fun v hv => (hitems v hv).plain rfl (.inl (by omega))
  | @record _ _ members hdepth hnames hmembers =>
      rw [Wire.wrapped]
      split
      · next hnone => exact (Wired.record hdepth hnames hmembers).plain rfl (.inr ⟨by omega, hnone⟩)
      · refine .record ?_ (List.forall_mem_map.mpr fun m hm => ?_)
        · rw [List.map_map]
          exact hnames
        · have hwired := hmembers m hm
          generalize hslot : (decide (1 = 1) && bytesAt.contains m.1) = slot at hwired
          show Plain (wrapMember m.2)
          generalize m.2 = v at hwired
          cases hwired with
          | scalar _ hs => exact .scalar hs
          | bytes _ => exact plain_wrapBytes _
          | array _ hitems => exact .array fun v hv => (hitems v hv).plain rfl (.inl (by omega))
          | record hdepth hnames hmembers =>
              exact .record hnames fun m hm => (hmembers m hm).plain rfl (.inl (by omega))

end

/-! ## Envelopes -/

/-- The frame can be addressed: its ID is one, its name is that of an event. -/
def RawFrame.Addressed : RawFrame → Prop
  | .call _ id _ _ => 0 < id ∧ id < 2 ^ 53
  | .result id _ => 0 < id ∧ id < 2 ^ 53
  | .error id _ => 0 < id ∧ id < 2 ^ 53
  | .event name _ => name ∈ eventNames
  | .fault _ => True

/-- A call's record, as it is sent and as it arrives. -/
def callRecord (id : Nat) (method : JsString) (input : Raw) : Properties :=
  [(lit "kind", true, .scalar (.string (lit "call"))),
    (lit "id", true, .scalar (.number (.ofInt id))),
    (lit "method", true, .scalar (.string method)), (lit "input", true, input)]

/-- The frame as it arrives, around a payload. -/
def RawFrame.arrived (payload : Raw) : RawFrame → RawFrame
  | .call _ id method _ => .call (callRecord id method payload) id method payload
  | .result id _ => .result id payload
  | .error id _ => .error id payload
  | .event name _ => .event name payload
  | .fault _ => .fault payload

theorem readable_ofInt {id : Nat} (hpos : 0 < id) (hsafe : id < 2 ^ 53) :
    Json.readable (.number (.ofInt id)) := by
  have hid : (Binary64.ofInt id).safeInteger? = some (id : Int) :=
    Binary64.safeInteger?_ofInt (by simpa using hsafe)
  constructor
  · by_contra hinfinite
    have hexponent : (Binary64.ofInt id).exponent = 2047 := by
      simpa [Binary64.isFinite] using hinfinite
    have hnone : (Binary64.ofInt id).safeInteger? = none := by
      rw [Binary64.safeInteger?, hexponent, if_neg (by simp), if_pos (by right; decide)]
    rw [hnone] at hid
    cases hid
  · intro hzero
    rw [hzero, show Binary64.negZero.safeInteger? = some 0 from rfl] at hid
    have := Option.some.inj hid
    omega

theorem callId?_ofInt {id : Nat} (hpos : 0 < id) (hsafe : id < 2 ^ 53) :
    callId? (.scalar (.number (.ofInt id))) = some id := by
  rw [callId?, Binary64.safeInteger?_ofInt (by simpa using hsafe), Option.bind_some,
    if_pos (by omega), Int.toNat_natCast]

theorem isUndefined_raw (v : Value) : v.raw.isUndefined = false := by cases v <;> rfl

theorem eventName?_of_mem {name : JsString} (h : name ∈ eventNames) :
    eventName? (.scalar (.string name)) = some name := by
  rw [eventName?, string?, Option.filter_some, if_pos (List.contains_iff_mem.mpr h)]

theorem readFrame_around (N : NumberText) {frame : RawFrame} (haddressed : frame.Addressed)
    (v : Value) : readFrame N (frame.around v).raw .clone = some (frame.arrived v.raw) := by
  cases frame with
  | call members id method input =>
      show (callId? (.scalar (.number (.ofInt id)))).bind _ = _
      rw [callId?_ofInt haddressed.1 haddressed.2]
      show (if v.raw.isUndefined then none else some v.raw).bind _ = _
      rw [isUndefined_raw]
      rfl
  | result id value =>
      show (callId? (.scalar (.number (.ofInt id)))).bind _ = _
      rw [callId?_ofInt haddressed.1 haddressed.2]
      show (if v.raw.isUndefined then none else some v.raw).bind _ = _
      rw [isUndefined_raw]
      rfl
  | error id error =>
      show (callId? (.scalar (.number (.ofInt id)))).bind _ = _
      rw [callId?_ofInt haddressed.1 haddressed.2]
      show (if v.raw.isUndefined then none else some v.raw).bind _ = _
      rw [isUndefined_raw]
      rfl
  | event name value =>
      show (eventName? (.scalar (.string name))).bind _ = _
      rw [eventName?_of_mem haddressed]
      show (if v.raw.isUndefined then none else some v.raw).bind _ = _
      rw [isUndefined_raw]
      rfl
  | fault error =>
      show (if v.raw.isUndefined then none else some v.raw).bind _ = _
      rw [isUndefined_raw]
      rfl

/-- A text frame is read as what it was parsed to. -/
theorem readFrame_text (N : NumberText) {data record : Raw} (h : parse N data = record) :
    readFrame N data .text = readFrame N record .clone := by
  subst h
  rfl

theorem Plain.around {frame : RawFrame} (haddressed : frame.Addressed) {v : Value} (h : Plain v) :
    Plain (frame.around v) := by
  cases frame with
  | call members id method input =>
      refine .record (show [lit "kind", lit "id", lit "method", lit "input"].Nodup by decide) ?_
      simp only [List.forall_mem_cons]
      exact ⟨plain_str _, .scalar (readable_ofInt haddressed.1 haddressed.2), plain_str _, h,
        by simp⟩
  | result id value =>
      refine .record (show [lit "kind", lit "id", lit "value"].Nodup by decide) ?_
      simp only [List.forall_mem_cons]
      exact ⟨plain_str _, .scalar (readable_ofInt haddressed.1 haddressed.2), h, by simp⟩
  | error id error =>
      refine .record (show [lit "kind", lit "id", lit "error"].Nodup by decide) ?_
      simp only [List.forall_mem_cons]
      exact ⟨plain_str _, .scalar (readable_ofInt haddressed.1 haddressed.2), h, by simp⟩
  | event name value =>
      refine .record (show [lit "kind", lit "name", lit "value"].Nodup by decide) ?_
      simp only [List.forall_mem_cons]
      exact ⟨plain_str _, plain_str _, h, by simp⟩
  | fault error =>
      refine .record (show [lit "kind", lit "error"].Nodup by decide) ?_
      simp only [List.forall_mem_cons]
      exact ⟨plain_str _, h, by simp⟩

/-! ## Byte members -/

/-- The members of a payload, those of some names as they are and the others as they are written. -/
def unwrapped (names : List JsString) (members : List (JsString × Value)) : Properties :=
  members.map fun m => (m.1, true, if m.1 ∈ names then m.2.raw else (wrapMember m.2).raw)

theorem held_unwrapped (names : List JsString) (members : List (JsString × Value))
    (name : JsString) :
    held (unwrapped names members) name = ((members.lookup name).map fun v =>
      if name ∈ names then v.raw else (wrapMember v).raw).getD .undefined := by
  induction members with
  | nil => rfl
  | cons m members ih =>
      rw [held] at ih ⊢
      rw [unwrapped, List.map_cons, List.lookup_cons, List.lookup_cons]
      cases heq : name == m.1 with
      | true =>
          obtain rfl := beq_iff_eq.mp heq
          rfl
      | false => exact ih

theorem lookup_of_mem {β : Type} {members : List (JsString × β)}
    (hnames : (members.map Prod.fst).Nodup) {m : JsString × β} (h : m ∈ members) :
    members.lookup m.1 = some m.2 := by
  induction members with
  | nil => exact (List.not_mem_nil h).elim
  | cons first members ih =>
      rw [List.map_cons, List.nodup_cons] at hnames
      rw [List.lookup_cons]
      rcases List.mem_cons.mp h with rfl | h
      · simp
      · have hne : m.1 ≠ first.1 := fun hsame => hnames.1 (hsame ▸ List.mem_map_of_mem h)
        simp only [beq_eq_false_iff_ne.mpr hne]
        exact ih hnames.2 h

theorem unwrapped_cons {names : List JsString} {members : List (JsString × Value)} {name : JsString}
    (h : name ∈ names ∨ ∀ m ∈ members, m.1 = name → wrapMember m.2 = m.2) :
    unwrapped (name :: names) members = unwrapped names members := by
  refine List.map_congr_left fun m hm => ?_
  by_cases hname : m.1 = name
  · rcases h with h | h
    · simp [hname, h]
    · simp [hname, h m hm hname]
  · simp [hname]

theorem put_unwrapped {names : List JsString} {members : List (JsString × Value)} {name : JsString}
    {v : Value} (hnames : (members.map Prod.fst).Nodup) (h : members.lookup name = some v) :
    put name v.raw (unwrapped names members) = unwrapped (name :: names) members := by
  induction members with
  | nil => cases h
  | cons m members ih =>
      rw [List.map_cons, List.nodup_cons] at hnames
      rw [List.lookup_cons] at h
      rw [unwrapped, List.map_cons, put]
      cases heq : name == m.1 with
      | true =>
          obtain rfl := beq_iff_eq.mp heq
          rw [heq] at h
          obtain rfl := Option.some.inj h
          have hrest : unwrapped (m.1 :: names) members = unwrapped names members :=
            unwrapped_cons (.inr fun other hother hsame =>
              (hnames.1 (hsame ▸ List.mem_map_of_mem hother)).elim)
          rw [if_pos rfl, unwrapped, List.map_cons, ← unwrapped, ← unwrapped, hrest]
          simp
      | false =>
          rw [heq] at h
          have hne : m.1 ≠ name := fun hsame => by simp [hsame] at heq
          rw [if_neg hne, ← unwrapped, ih hnames.2 h, unwrapped, unwrapped, List.map_cons]
          simp [hne]

section
variable {transport : Transport} {maxBytes : Nat} {bytesAt : List JsString}
  {properties : Properties}
  {member : JsString} {translated : Bool}

/-- A member with no wrapped bytes, and not too many bytes of its own, is left as it is. -/
theorem translate_left
    (hwrapper : transport = .text → byteWrapper? (held properties member) = none)
    (hbytes : ∀ view, held properties member = .bytes view → view.byteLength ≤ maxBytes) :
    translate transport maxBytes (member :: bytesAt) properties translated =
      translate transport maxBytes bytesAt properties translated := by
  have hfits : ∀ view, held properties member = .bytes view → ¬ maxBytes < view.byteLength :=
    fun view hview => Nat.not_lt.mpr (hbytes view hview)
  cases transport with
  | clone =>
      rw [translate]
      · split
        · next view hview =>
            rw [Checked.refuse_of_not (hfits view hview)]
            rfl
        · rfl
      · simp
  | text =>
      rw [translate.eq_def]
      simp only [hwrapper rfl]
      split
      · next view hview =>
          rw [Checked.refuse_of_not (hfits view hview)]
          rfl
      · rfl

theorem translate_wrapped {content : List UInt8}
    (hwrapper : byteWrapper? (held properties member) = some (toBase64 content))
    (hfits : content.length ≤ maxBytes) :
    translate .text maxBytes (member :: bytesAt) properties translated =
      translate .text maxBytes bytesAt (put member (.bytes (.whole content)) properties) true := by
  rw [translate.eq_def]
  simp only [hwrapper, base64Length_toBase64, fromBase64_eq_some.mpr rfl]
  rw [Checked.refuse_of_not (by omega)]
  rfl

theorem byteWrapper?_wrapBytes (content : List UInt8) :
    byteWrapper? (wrapBytes content).raw = some (toBase64 content) := rfl

theorem fits_of_translate {out : Properties × Bool}
    (h : translate .clone maxBytes (member :: bytesAt) properties translated = .ok out) :
    ∀ view, held properties member = .bytes view → view.byteLength ≤ maxBytes := by
  intro view hview
  rw [translate, hview] at h
  · have := (refuse_bind_eq_ok.mp h).1
    omega
  · simp

/-- On a structured-clone port nothing is decoded. -/
theorem translate_clone :
    translate .clone maxBytes bytesAt properties translated = .ok (properties, translated) ↔
      ∀ member ∈ bytesAt, ∀ view, held properties member = .bytes view →
        view.byteLength ≤ maxBytes := by
  induction bytesAt with
  | nil => simp [translate]
  | cons member bytesAt ih =>
      rw [List.forall_mem_cons, ← ih]
      constructor
      · intro h
        have hbytes := fits_of_translate h
        rw [translate_left (by simp) hbytes] at h
        exact ⟨hbytes, h⟩
      · intro h
        rw [translate_left (by simp) h.1]
        exact h.2

theorem translate_clone_eq {out : Properties × Bool}
    (h : translate .clone maxBytes bytesAt properties translated = .ok out) :
    out = (properties, translated) := by
  induction bytesAt with
  | nil => exact (Except.ok.inj h).symm
  | cons member bytesAt ih =>
      rw [translate_left (by simp) (fits_of_translate h)] at h
      exact ih h

theorem fits_of_raw {v : Value} {view : View} (h : v.raw = .bytes view)
    (hfits : ∀ content, v = .bytes content → content.length ≤ maxBytes) :
    view.byteLength ≤ maxBytes := by
  cases v with
  | bytes content =>
      cases h
      exact hfits content rfl
  | _ => cases h

/-- On a text port the bytes are decoded, each at its member. -/
theorem translate_text {members : List (JsString × Value)} (hnames : (members.map Prod.fst).Nodup)
    (htold : ∀ m ∈ members, m.1 ∈ bytesAt → byteWrapper? m.2.raw = none)
    (hfits : ∀ m ∈ members, m.1 ∈ bytesAt → ∀ content, m.2 = .bytes content →
      content.length ≤ maxBytes) (names : List JsString) (translated : Bool) :
    ∃ more, translate .text maxBytes bytesAt (unwrapped names members) translated =
        .ok (unwrapped (bytesAt.reverse ++ names) members, more) ∧
      (more = false → translated = false ∧
        unwrapped (bytesAt.reverse ++ names) members = unwrapped names members) := by
  induction bytesAt generalizing names translated with
  | nil => exact ⟨translated, rfl, fun h => ⟨h, rfl⟩⟩
  | cons member bytesAt ih =>
      have ih := ih (fun m hm hmem => htold m hm (List.mem_cons_of_mem member hmem))
        fun m hm hmem => hfits m hm (List.mem_cons_of_mem member hmem)
      rw [List.reverse_cons, List.append_assoc, List.singleton_append]
      have hheld := held_unwrapped names members member
      -- a member that is left has nothing to decode, or has been decoded
      have hleave (hsame : unwrapped (member :: names) members = unwrapped names members)
          (hwrapper : byteWrapper? (held (unwrapped names members) member) = none)
          (hbytes : ∀ view, held (unwrapped names members) member = .bytes view →
            view.byteLength ≤ maxBytes) :
          ∃ more,
            translate .text maxBytes (member :: bytesAt) (unwrapped names members) translated =
              .ok (unwrapped (bytesAt.reverse ++ member :: names) members, more) ∧
            (more = false → translated = false ∧
              unwrapped (bytesAt.reverse ++ member :: names) members =
                unwrapped names members) := by
        rw [translate_left (fun _ => hwrapper) hbytes, ← hsame]
        exact ih (member :: names) translated
      cases hlookup : members.lookup member with
      | none =>
          rw [hlookup] at hheld
          refine hleave (unwrapped_cons (.inr fun m hm hname => ?_)) (by rw [hheld]; rfl)
            (fun view hview => by rw [hheld] at hview; cases hview)
          have habsent := List.lookup_eq_none_iff.mp hlookup m hm
          simp [hname] at habsent
      | some v =>
          have hmem : (member, v) ∈ members := Json.mem_of_lookup hlookup
          rw [hlookup] at hheld
          by_cases hdone : member ∈ names
          · rw [Option.map_some, if_pos hdone, Option.getD_some] at hheld
            refine hleave (unwrapped_cons (.inl hdone)) ?_ fun view hview => ?_
            · rw [hheld]
              exact htold _ hmem List.mem_cons_self
            · exact fits_of_raw (hheld.symm.trans hview) (hfits _ hmem List.mem_cons_self)
          · rw [Option.map_some, if_neg hdone, Option.getD_some] at hheld
            by_cases hbytes : ∃ content, v = .bytes content
            · obtain ⟨content, rfl⟩ := hbytes
              have hwrapper : byteWrapper? (held (unwrapped names members) member) =
                  some (toBase64 content) := by rw [hheld]; exact byteWrapper?_wrapBytes content
              rw [translate_wrapped hwrapper (hfits _ hmem List.mem_cons_self content rfl)]
              obtain ⟨more, hmore, hfalse⟩ := ih (member :: names) true
              rw [show (.bytes (.whole content) : Raw) = (Value.bytes content).raw from rfl,
                put_unwrapped hnames hlookup]
              refine ⟨more, hmore, fun h => ?_⟩
              cases (hfalse h).1
            · have hkept : wrapMember v = v := by
                cases v with
                | bytes content => exact absurd ⟨content, rfl⟩ hbytes
                | _ => rfl
              rw [hkept] at hheld
              refine hleave (unwrapped_cons (.inr fun m hm hname => ?_)) ?_ fun view hview => ?_
              · have hsame : members.lookup m.1 = some m.2 := lookup_of_mem hnames hm
                rw [hname, hlookup] at hsame
                rw [← Option.some.inj hsame]
                exact hkept
              · rw [hheld]
                exact htold _ hmem List.mem_cons_self
              · exact fits_of_raw (hheld.symm.trans hview) (hfits _ hmem List.mem_cons_self)

end

/-! ## Payloads -/

/-- What may be carried: where bytes may stand there are not too many, and no record that only looks
like wrapped bytes. -/
structure Carriable (bytesAt : List JsString) (maxBytes : Nat) (v : Value) : Prop where
  told : ∀ members, v = .record members → ∀ m ∈ members, m.1 ∈ bytesAt →
    byteWrapper? m.2.raw = none
  fits : ∀ members, v = .record members → ∀ m ∈ members, m.1 ∈ bytesAt → ∀ content,
    m.2 = .bytes content → content.length ≤ maxBytes

/-- A payload as it arrives over a port. -/
def Transport.carries (bytesAt : List JsString) (v : Value) : Transport → Raw
  | .text => (wrapped bytesAt v).raw
  | .clone => v.raw

section
variable {budget : Option Budget} {bytesAt : List JsString} {v : Value}

theorem readValue_raw (hwired : Wired budget bytesAt 1 false v)
    (hfits : ∀ b ∈ budget, v.weight ≤ b.maxValueBytes) :
    readValue budget bytesAt v.raw = .ok (v, v.weight) := by
  have hread : read budget bytesAt [] 1 false 0 v.raw = .ok (v, 0 + v.weight) :=
    read_raw hwired fun b hb => by
      have := hfits b hb
      omega
  rw [Nat.zero_add] at hread
  cases v <;> exact hread

theorem wrapMember_of_wired {depth : Nat} (h : Wired budget bytesAt depth false v) :
    wrapMember v = v := by cases h <;> rfl

theorem unwrapped_all {names : List JsString} {members : List (JsString × Value)}
    (h : ∀ m ∈ members, m.1 ∉ names → wrapMember m.2 = m.2) :
    unwrapped names members = Value.rawMembers members := by
  rw [Value.rawMembers_eq_map]
  refine List.map_congr_left fun m hm => ?_
  by_cases hmem : m.1 ∈ names
  · rw [if_pos hmem]
  · rw [if_neg hmem, h m hm hmem]

theorem held_rawMembers (members : List (JsString × Value)) (name : JsString) :
    held (Value.rawMembers members) name =
      ((members.lookup name).map Value.raw).getD .undefined := by
  have hall : unwrapped (members.map Prod.fst) members = Value.rawMembers members :=
    unwrapped_all fun m hm hnot => absurd (List.mem_map_of_mem hm) hnot
  rw [← hall, held_unwrapped]
  cases hlookup : members.lookup name with
  | none => rfl
  | some v =>
      have hmem : name ∈ members.map Prod.fst := List.mem_map_of_mem (Json.mem_of_lookup hlookup)
      rw [Option.map_some, if_pos hmem]
      rfl

/-- The payload that arrives is read to the value it was, charged its weight. -/
theorem readPayload_carries {maxBytes : Nat} (hwired : Wired budget bytesAt 1 false v)
    (hfits : ∀ b ∈ budget, v.weight ≤ b.maxValueBytes) (hcarriable : Carriable bytesAt maxBytes v)
    (transport : Transport) :
    readPayload transport maxBytes bytesAt budget (transport.carries bytesAt v) =
      .ok (v, v.weight) := by
  have hread := readValue_raw hwired hfits
  cases hwired with
  | scalar hdepth hs => cases transport <;> exact hread
  | array hdepth hitems => cases transport <;> exact hread
  | @record _ _ members hdepth hnames hmembers =>
      by_cases hnone : bytesAt = []
      · have hcarries :
            transport.carries bytesAt (.record members) = (Value.record members).raw := by
          cases transport with
          | clone => rfl
          | text => rw [Transport.carries, wrapped, if_pos hnone]
        rw [hcarries]
        exact (if_pos hnone).trans hread
      · have hbytes : ∀ m ∈ members, m.1 ∉ bytesAt → wrapMember m.2 = m.2 := by
          intro m hm hnot
          have hmember := hmembers m hm
          rw [show (decide (1 = 1) && bytesAt.contains m.1) = false by simpa using hnot] at hmember
          exact wrapMember_of_wired hmember
        cases transport with
        | clone =>
            have hleft : translate .clone maxBytes bytesAt (Value.rawMembers members) false =
                .ok (Value.rawMembers members, false) := by
              refine translate_clone.mpr fun member hmember view hview => ?_
              rw [held_rawMembers] at hview
              cases hlookup : members.lookup member with
              | none =>
                  rw [hlookup] at hview
                  cases hview
              | some held =>
                  rw [hlookup] at hview
                  exact fits_of_raw hview
                    (hcarriable.fits members rfl _ (Json.mem_of_lookup hlookup) hmember)
            refine (if_neg hnone).trans (bind_eq_ok.mpr ⟨_, hleft, ?_⟩)
            exact hread
        | text =>
            obtain ⟨more, hmore, hfalse⟩ := translate_text hnames (hcarriable.told members rfl)
              (hcarriable.fits members rfl) [] false
            have hall : unwrapped (bytesAt.reverse ++ []) members = Value.rawMembers members :=
              unwrapped_all fun m hm hnot => hbytes m hm (by simpa using hnot)
            have hstart : (wrapped bytesAt (.record members)).raw =
                .record none true (unwrapped [] members) := by
              rw [wrapped, if_neg hnone, Value.raw, Value.rawMembers_eq_map, List.map_map,
                unwrapped]
              simp
            rw [hall] at hmore hfalse
            rw [Transport.carries, hstart]
            refine (if_neg hnone).trans (bind_eq_ok.mpr ⟨_, hmore, ?_⟩)
            cases more with
            | true => exact hread
            | false =>
                rw [← (hfalse rfl).2]
                exact hread

/-- What is written of a value that was read without bounds, and what arrives of it. -/
theorem arrives (N : NumberText) {frame : RawFrame} {transport : Transport} {data : Raw}
    {size : Nat} (haddressed : frame.Addressed) (hwired : Wired none bytesAt 1 false v)
    (hread : readValue none bytesAt frame.payload = .ok (v, size))
    (hwrite : writeFrame N frame transport bytesAt = .ok data) :
    readFrame N data transport = some (frame.arrived (transport.carries bytesAt v)) := by
  rw [writeFrame, hread] at hwrite
  cases transport with
  | clone =>
      obtain rfl := Except.ok.inj hwrite
      exact readFrame_around N haddressed v
  | text =>
      obtain rfl := Except.ok.inj hwrite
      rw [readFrame_text N (hwired.wrapped.around haddressed |>.parse N)]
      exact readFrame_around N haddressed (wrapped bytesAt v)

theorem readValue_read (raw : Raw) : raw = .undefined ∨
    readValue budget bytesAt raw = read budget bytesAt [] 1 false 0 raw := by
  cases raw with
  | undefined => exact .inl rfl
  | _ => exact .inr rfl

theorem readValue_comes {raw : Raw} {size : Nat} (hdistinct : raw.Distinct)
    (h : readValue budget bytesAt raw = .ok (v, size)) : Comes budget bytesAt 1 false 0 v size := by
  rcases readValue_read raw with rfl | hread
  · cases h
  · exact read_comes hdistinct (hread ▸ h)

theorem size_of_readValue {raw : Raw} {size : Nat} (hdistinct : raw.Distinct)
    (h : readValue budget bytesAt raw = .ok (v, size)) : size = v.weight := by
  have hcharged := (readValue_comes hdistinct h).charged
  omega

/-- What can be read to be written is written. -/
theorem writeFrame_of_read (N : NumberText) {frame : RawFrame} (transport : Transport) {size : Nat}
    (hread : readValue none bytesAt frame.payload = .ok (v, size)) :
    ∃ data, writeFrame N frame transport bytesAt = .ok data := by
  rw [writeFrame, hread]
  cases transport with
  | clone => exact ⟨_, rfl⟩
  | text => exact ⟨_, rfl⟩

/-- Whatever is written arrives: the frame with its ID or name, and, unless something in it stands
for bytes that it is not, a payload that reads to what the writer read, at the same size. -/
theorem frames_arrive (N : NumberText) {frame : RawFrame} {transport : Transport} {data : Raw}
    (maxBytes : Nat) (haddressed : frame.Addressed) (hdistinct : frame.payload.Distinct)
    (hwrite : writeFrame N frame transport bytesAt = .ok data) :
    ∃ value size payload, readValue none bytesAt frame.payload = .ok (value, size) ∧
      readFrame N data transport = some (frame.arrived payload) ∧
      (Carriable bytesAt maxBytes value →
        readPayload transport maxBytes bytesAt none payload = .ok (value, size)) := by
  cases hread : readValue none bytesAt frame.payload with
  | error refused =>
      rw [writeFrame, hread] at hwrite
      cases hwrite
  | ok read =>
      obtain ⟨value, size⟩ := read
      have hwired := (readValue_comes hdistinct hread).wired
      obtain rfl : size = value.weight := size_of_readValue hdistinct hread
      refine ⟨value, value.weight, transport.carries bytesAt value, rfl,
        arrives N haddressed hwired hread hwrite, fun hcarriable => ?_⟩
      exact readPayload_carries hwired (by simp) hcarriable transport

end

/-- A view of part of a buffer. -/
def exampleView : View := ⟨[0, 1, 2, 3, 4], 1, 3, false, by decide⟩

def exampleBackup : Raw := .record (some 0) true [(lit "backup", true, .bytes exampleView)]

theorem frames_arrive_example : ∃ data payload,
    writeFrame EventStore.patternNumbers (.result 1 exampleBackup) .text [lit "backup"] = .ok data ∧
      readFrame EventStore.patternNumbers data .text = some (.result 1 payload) ∧
      readPayload .text 64 [lit "backup"] none payload =
        .ok (.record [(lit "backup", .bytes [1, 2, 3])], 33) := by
  obtain ⟨data, hwrite⟩ : ∃ data, writeFrame EventStore.patternNumbers (.result 1 exampleBackup)
      .text [lit "backup"] = .ok data := ⟨_, rfl⟩
  have haddressed : (RawFrame.result 1 exampleBackup).Addressed := ⟨Nat.one_pos, by decide⟩
  have hdistinct : exampleBackup.Distinct := by
    refine .record (by decide) ?_
    simp only [List.forall_mem_cons]
    exact ⟨.bytes _, by simp⟩
  obtain ⟨value, size, payload, hread, hframe, hpayload⟩ :=
    frames_arrive EventStore.patternNumbers 64 haddressed hdistinct hwrite
  have hvalue : (value, size) = (.record [(lit "backup", .bytes [1, 2, 3])], 33) :=
    Except.ok.inj (hread.symm.trans rfl)
  obtain ⟨rfl, rfl⟩ := Prod.mk.inj hvalue
  have hcarriable : Carriable [lit "backup"] 64 (.record [(lit "backup", .bytes [1, 2, 3])]) := by
    constructor
    · rintro members ⟨⟩ m hm -
      obtain rfl := List.mem_singleton.mp hm
      rfl
    · rintro members ⟨⟩ m hm - content hcontent
      obtain rfl := List.mem_singleton.mp hm
      obtain rfl := Value.bytes.inj hcontent
      decide
  exact ⟨data, payload, hwrite, hframe, hpayload hcarriable⟩

/-! ## What a sender of its own reads -/

section
variable {budget : Option Budget} {bytesAt : List JsString} {raw : Raw} {v : Value}
  {maxBytes size : Nat}

/-- What was never on a port is read as it is, with no member of it over the bound. -/
theorem readPayload_clone (h : readPayload .clone maxBytes bytesAt budget raw = .ok (v, size)) :
    readValue budget bytesAt raw = .ok (v, size) ∧ ∀ identity properties,
      raw = .record identity true properties → ∀ member ∈ bytesAt, ∀ view,
        held properties member = .bytes view → view.byteLength ≤ maxBytes := by
  by_cases hrecord : ∃ identity properties, raw = .record identity true properties
  · obtain ⟨identity, properties, rfl⟩ := hrecord
    by_cases hnone : bytesAt = []
    · refine ⟨(if_pos hnone).symm.trans h, fun _ _ _ member hmember => ?_⟩
      rw [hnone] at hmember
      exact (List.not_mem_nil hmember).elim
    · obtain ⟨out, htranslate, h⟩ := bind_eq_ok.mp ((if_neg hnone).symm.trans h)
      obtain rfl := translate_clone_eq htranslate
      refine ⟨h, fun identity' properties' heq => ?_⟩
      obtain ⟨-, -, rfl⟩ := Raw.record.inj heq
      exact translate_clone.mp htranslate
  · have hsame : readPayload .clone maxBytes bytesAt budget raw = readValue budget bytesAt raw := by
      cases raw with
      | record identity plain properties =>
          cases plain with
          | true => exact absurd ⟨_, _, rfl⟩ hrecord
          | false => rfl
      | _ => rfl
    exact ⟨hsame ▸ h, fun identity properties heq => absurd ⟨identity, properties, heq⟩ hrecord⟩

theorem fits_of_readPayload {members : List (JsString × Value)} (hdistinct : raw.Distinct)
    (h : readPayload .clone maxBytes bytesAt budget raw = .ok (.record members, size)) :
    ∀ m ∈ members, m.1 ∈ bytesAt → ∀ content, m.2 = .bytes content →
      content.length ≤ maxBytes := by
  intro m hm hmember content hcontent
  obtain ⟨hread, hbounds⟩ := readPayload_clone h
  rcases readValue_read raw with rfl | hvalue
  · cases hread
  · rw [hvalue] at hread
    obtain ⟨identity, properties, within, charged, rfl, hmembers⟩ := record_of_read hread
    have hm : (m.1, Value.bytes content) ∈ members := hcontent ▸ hm
    obtain ⟨view, hview, hlength⟩ := bytes_of_readMembers hmembers hm
    have hnames : (properties.map Prod.fst).Nodup := by
      cases hdistinct with
      | record hnames _ => exact hnames
    have hheld : held properties m.1 = .bytes view := by
      have hlookup : properties.lookup m.1 = some (true, .bytes view) := lookup_of_mem hnames hview
      rw [held, hlookup]
      rfl
    rw [← hlength]
    exact hbounds identity properties rfl m.1 hmember view hheld

theorem Wired.unbounded {depth : Nat} {slot : Bool} (h : Wired budget bytesAt depth slot v) :
    Wired none bytesAt depth slot v := by
  induction h with
  | scalar _ hs => exact .scalar (by simp) hs
  | bytes _ => exact .bytes (by simp)
  | array _ _ ih => exact .array (by simp) ih
  | record _ hnames _ ih => exact .record (by simp) hnames ih

end

end Estoc.Wire
