import Estoc.Vault.DocumentRoundTrip
import Estoc.Vault.Plaintext

/-!
# What is sent reads back

The plaintext of an intent under an ID is read as the intent it was made of, under the same CID: the
fields are found by their names, what an intent leaves out is absent on the wire and read as absent,
a reference to the message itself is read as one under whichever ID it was sent, and the document
comes back under its CID. The one thing an ID may not be is one the intent refers to already.
-/

set_option linter.unusedSectionVars false

namespace Estoc.Vault.Plaintext

open Json (lit)
open Utf16 (JsString)
open Checked (refuse refuse_of_not refuse_bind_eq_ok bind_eq_ok ok_bind pure_eq_ok)
open EventStore (JsValue JsError Packages canonicalText parseText parseStrict isRawCid IJson)
open EventStore.JsValue (get hasOwn ofJson)
open Document (Checks DocumentError Base64Url Cid StoredMessage StoredMessageDocument invalid nullable
  textOrNull numberOrNull storeMessage wireAttachments readStoredDocument)

variable {P : Packages} {B : Base64Url} {s own id name : JsString} {«at» : JsString} {value : JsValue}

/-! ## Members -/

section Members

theorem nonEmpty_str (h : s ≠ []) : nonEmpty (.str s) «at» = .ok s := by
  cases s with
  | nil => exact absurd rfl h
  | cons u s => rfl

theorem nonEmpty_eq_ok {t : JsString} (h : nonEmpty value «at» = .ok t) : t ≠ [] ∧ value = .str t := by
  unfold nonEmpty at h
  split at h
  · cases h
    exact ⟨List.cons_ne_nil _ _, rfl⟩
  · cases h

theorem texts_map (l : List JsString) : texts (l.map .str) = some l := by
  induction l with
  | nil => rfl
  | cons s l ih =>
    rw [List.map_cons, JsValue.str, texts, ih]
    rfl

theorem strings_map (l : List JsString) : strings (.array (l.map .str)) «at» = .ok l := by
  rw [strings, texts_map]
  rfl

theorem didsFrom_map {l : List JsString} (h : ∀ d ∈ l, isDid d = true) (i : Nat) :
    didsFrom «at» (l.map .str) i = .ok l := by
  induction l generalizing i with
  | nil => rfl
  | cons d l ih =>
    obtain ⟨hd, hl⟩ := List.forall_mem_cons.mp h
    rw [List.map_cons, didsFrom, JsValue.str, did, if_pos hd, pure_eq_ok, ok_bind, ih hl, ok_bind]
    rfl

theorem epochSeconds_number {x : Binary64} (h : x.safeInteger?.isSome = true) :
    epochSeconds (.scalar (.number x)) «at» = .ok x := by
  rw [epochSeconds, if_pos h]
  rfl

theorem epochSeconds_eq_ok {x : Binary64} (h : epochSeconds value «at» = .ok x) :
    x.safeInteger?.isSome = true := by
  unfold epochSeconds at h
  split at h
  · split at h
    · next hx =>
      cases h
      exact hx
    · cases h
  · cases h

/-- A member that is there is checked. -/
theorem nullable_some {α : Type} {check : JsValue → JsString → Checks α} {a : α}
    (hundefined : value ≠ .undefined) (hnull : value ≠ .scalar .null) (h : check value «at» = .ok a) :
    nullable value «at» check = .ok (some a) := by
  unfold nullable
  split
  · exact absurd rfl hundefined
  · exact absurd rfl hnull
  · rw [h, ok_bind, pure_eq_ok]

/-- A field put down where it has a value is read as what it was. -/
theorem nullable_getD {α : Type} {check : JsValue → JsString → Checks α} {put : α → JsValue}
    {o : Option α} (hput : ∀ a ∈ o, put a ≠ .undefined ∧ put a ≠ .scalar .null)
    (hcheck : ∀ a ∈ o, check (put a) «at» = .ok a) :
    nullable ((o.map put).getD .undefined) «at» check = .ok o := by
  cases o with
  | none => rfl
  | some a => exact nullable_some (hput a rfl).1 (hput a rfl).2 (hcheck a rfl)

/-- A field is found by its name, behind members of other names. -/
theorem get_given {headers : List (JsString × JsValue)} {fields : List (JsString × Option JsValue)}
    (hnodup : (fields.map Prod.fst).Nodup) (hheaders : ∀ m ∈ headers, m.1 ∉ fields.map Prod.fst)
    {field : JsString × Option JsValue} (hmem : field ∈ fields) :
    get (headers ++ given fields) field.1 = field.2.getD .undefined := by
  have hout : field.1 ∉ headers.map Prod.fst := by
    intro hin
    obtain ⟨m, hm, hname⟩ := List.mem_map.mp hin
    exact hheaders m hm (hname ▸ List.mem_map_of_mem hmem)
  have hskip : get (headers ++ given fields) field.1 = get (given fields) field.1 := by
    rw [JsValue.get, List.lookup_append, Document.lookup_of_notMem hout]
    rfl
  rw [hskip]
  clear hskip hout hheaders
  induction fields with
  | nil => cases hmem
  | cons first rest ih =>
    obtain ⟨hfirst, hrest⟩ := List.nodup_cons.mp hnodup
    obtain ⟨firstName, firstValue⟩ := first
    rcases List.mem_cons.mp hmem with rfl | hin
    · cases firstValue with
      | none =>
        rw [given, List.filterMap_cons]
        refine Document.get_of_notMem fun hout => hfirst ?_
        obtain ⟨m, hm, hname⟩ := List.mem_map.mp hout
        obtain ⟨field, hfield, hsome⟩ := List.mem_filterMap.mp hm
        obtain ⟨v, -, rfl⟩ := Option.map_eq_some_iff.mp hsome
        rw [← hname]
        exact List.mem_map_of_mem hfield
      | some v =>
        rw [given, List.filterMap_cons]
        exact (Document.get_cons _ _ _).trans (if_pos rfl)
    · have hname : field.1 ∈ rest.map Prod.fst := List.mem_map_of_mem hin
      have hne : field.1 ≠ firstName := by
        rintro rfl
        exact hfirst hname
      cases firstValue with
      | none => exact ih hrest hin
      | some v => exact (Document.get_cons _ _ _).trans ((if_neg hne).trans (ih hrest hin))

theorem names_given {fields : List (JsString × Option JsValue)} {m : JsString × JsValue}
    (h : m ∈ given fields) : m.1 ∈ fields.map Prod.fst := by
  obtain ⟨field, hfield, hsome⟩ := List.mem_filterMap.mp h
  obtain ⟨v, -, rfl⟩ := Option.map_eq_some_iff.mp hsome
  exact List.mem_map_of_mem hfield

end Members

/-! ## Copies -/

section Copies

/-- The copy of a value is its canonical form. -/
theorem copyOf_eq_ok {copy : JsValue} (h : copyOf P value «at» = .ok copy) :
    ∃ v, IJson 0 v ∧ copy = ofJson v.canonical := by
  cases hplain : EventStore.plainJson value with
  | error error =>
    rw [copyOf, canonicalText, hplain] at h
    cases h
  | ok v =>
    have hijson := EventStore.admit_ijson value _ _ v hplain
    have hread : parseText P (Json.write P.numbers v.canonical) false = .ok (some v.canonical) :=
      EventStore.parseText_of_ijson (Json.readText_write hijson.readable) hijson.canonical
    rw [copyOf, canonicalText, hplain, ok_bind, pure_eq_ok, ok_bind, P.serialize_eq v hijson,
      Json.canonicalText, hread] at h
    cases h
    exact ⟨v, hijson, rfl⟩

/-- A canonical form is its own copy. -/
theorem copyOf_canonical {v : Json} (h : IJson 0 v) :
    copyOf P (ofJson v.canonical) «at» = .ok (ofJson v.canonical) := by
  have hplain : EventStore.plainJson (ofJson v.canonical) = .ok v.canonical :=
    EventStore.admit_ofJson h.canonical _
  have hread : parseText P (Json.write P.numbers v.canonical.canonical) false =
      .ok (some v.canonical.canonical) :=
    EventStore.parseText_of_ijson (Json.readText_write h.canonical.readable) h.canonical.canonical
  rw [copyOf, canonicalText, hplain, ok_bind, pure_eq_ok, ok_bind, P.serialize_eq _ h.canonical,
    Json.canonicalText, hread, Json.canonical_canonical]
  rfl

theorem checkHeaders_eq_ok {headers : List (JsString × JsValue)}
    (h : checkHeaders value «at» = .ok headers) :
    value = .object headers ∧ ∀ m ∈ headers, m.1 ∉ RESERVED_HEADERS := by
  unfold checkHeaders at h
  split at h
  · next members =>
    split at h
    · cases h
    · next hfind =>
      cases h
      refine ⟨rfl, fun m hm hin => ?_⟩
      exact absurd (decide_eq_true hin) (List.find?_eq_none.mp hfind m hm)
  · cases h

theorem checkHeaders_object {headers : List (JsString × JsValue)}
    (h : ∀ m ∈ headers, m.1 ∉ RESERVED_HEADERS) : checkHeaders (.object headers) «at» = .ok headers := by
  have hfind : (headers.find? fun m => m.1 ∈ RESERVED_HEADERS) = none :=
    List.find?_eq_none.mpr fun m hm hin => h m hm (of_decide_eq_true hin)
  rw [checkHeaders, hfind]
  rfl

end Copies

/-! ## Intents -/

section Intents

/-- What every intent is, whatever it was made of. -/
structure Sound (P : Packages) (intent : Intent) : Prop where
  type : intent.type ≠ []
  pthid : ∀ s ∈ intent.pthid, s ≠ []
  createdTime : ∀ x ∈ intent.createdTime, x.safeInteger?.isSome = true
  expiresTime : ∀ x ∈ intent.expiresTime, x.safeInteger?.isSome = true
  expiry : checkExpiry intent.createdTime intent.expiresTime = .ok ()
  document : isRawCid intent.document = true
  copied : ∃ v, IJson 0 v ∧ .object intent.headers = ofJson v.canonical
  headers : ∀ m ∈ intent.headers, m.1 ∉ RESERVED_HEADERS

/-- The CID an intent is under. -/
def Under (P : Packages) (identified : Identified Intent) : Prop :=
  cidOf P (.array [.str INTENT_KIND, .scalar (.number INTENT_VERSION),
    intentProjection identified.value]) (lit "the intent projection") = .ok identified.cid

/-- The messages an intent refers to. -/
def references (intent : Intent) : List JsString := intent.thid :: intent.pleaseAck.getD []

/-- The control headers that spell an intent, one that leaves its own thread out. -/
def controlOf (intent : Intent) : ControlHeaders where
  type := intent.type
  thid := if intent.thid = SELF then none else some intent.thid
  pthid := intent.pthid
  createdTime := intent.createdTime
  expiresTime := intent.expiresTime
  pleaseAck := intent.pleaseAck
  ack := intent.ack
  headers := .object intent.headers

theorem nullable_texts {o o' : Option JsString}
    (h : nullable (.scalar (textOrNull o)) «at» nonEmpty = .ok o') : o' = o ∧ ∀ s ∈ o, s ≠ [] := by
  cases o with
  | none =>
    cases h
    exact ⟨rfl, fun _ hs => by cases hs⟩
  | some t =>
    obtain ⟨t', ht, h⟩ := bind_eq_ok.mp h
    cases h
    obtain ⟨hne, heq⟩ := nonEmpty_eq_ok ht
    cases heq
    exact ⟨rfl, fun s hs => Option.mem_some.mp hs ▸ hne⟩

theorem nullable_times {o o' : Option Binary64}
    (h : nullable (.scalar (numberOrNull o)) «at» epochSeconds = .ok o') :
    ∀ x ∈ o', x.safeInteger?.isSome = true := by
  intro x hx
  exact epochSeconds_eq_ok (Document.nullable_eq_ok h x hx)

theorem intentOf_sound {control : ControlHeaders} {document : Cid} {identified : Identified Intent}
    (h : intentOf P own control document = .ok identified) :
    Sound P identified.value ∧ Under P identified := by
  obtain ⟨_, -, h⟩ := bind_eq_ok.mp h
  obtain ⟨thid, -, h⟩ := bind_eq_ok.mp h
  obtain ⟨createdTime, hcreated, h⟩ := bind_eq_ok.mp h
  obtain ⟨expiresTime, hexpires, h⟩ := bind_eq_ok.mp h
  obtain ⟨⟨⟩, hexpiry, h⟩ := bind_eq_ok.mp h
  obtain ⟨hdocument, h⟩ := refuse_bind_eq_ok.mp h
  obtain ⟨type, htype, h⟩ := bind_eq_ok.mp h
  obtain ⟨pthid, hpthid, h⟩ := bind_eq_ok.mp h
  obtain ⟨pleaseAck, -, h⟩ := bind_eq_ok.mp h
  obtain ⟨ack, -, h⟩ := bind_eq_ok.mp h
  obtain ⟨copy, hcopy, h⟩ := bind_eq_ok.mp h
  obtain ⟨headers, hheaders, h⟩ := bind_eq_ok.mp h
  obtain ⟨cid, hcid, h⟩ := bind_eq_ok.mp h
  cases h
  obtain ⟨v, hijson, rfl⟩ := copyOf_eq_ok hcopy
  obtain ⟨hobject, hreserved⟩ := checkHeaders_eq_ok hheaders
  obtain ⟨rfl, hne⟩ := nullable_texts hpthid
  exact ⟨⟨(nonEmpty_eq_ok htype).1, hne, nullable_times hcreated, nullable_times hexpires, hexpiry,
    eq_true_of_ne_false hdocument, ⟨v, hijson, hobject.symm⟩, hreserved⟩, hcid⟩

theorem selfOr_free (h : s ≠ SELF → canonicalWireId s ≠ canonicalWireId id) : selfOr id s = s := by
  by_cases hself : s = SELF
  · subst hself
    unfold selfOr
    split
    · rfl
    · rfl
  · exact if_neg (h hself)

theorem document_of_intentOf {control : ControlHeaders} {document : Cid} {identified : Identified Intent}
    (h : intentOf P own control document = .ok identified) : identified.value.document = document := by
  obtain ⟨_, -, h⟩ := bind_eq_ok.mp h
  obtain ⟨_, -, h⟩ := bind_eq_ok.mp h
  obtain ⟨_, -, h⟩ := bind_eq_ok.mp h
  obtain ⟨_, -, h⟩ := bind_eq_ok.mp h
  obtain ⟨_, -, h⟩ := bind_eq_ok.mp h
  obtain ⟨_, h⟩ := refuse_bind_eq_ok.mp h
  obtain ⟨_, -, h⟩ := bind_eq_ok.mp h
  obtain ⟨_, -, h⟩ := bind_eq_ok.mp h
  obtain ⟨_, -, h⟩ := bind_eq_ok.mp h
  obtain ⟨_, -, h⟩ := bind_eq_ok.mp h
  obtain ⟨_, -, h⟩ := bind_eq_ok.mp h
  obtain ⟨_, -, h⟩ := bind_eq_ok.mp h
  obtain ⟨_, -, h⟩ := bind_eq_ok.mp h
  cases h
  rfl

/-- An intent spelled under an ID it does not refer to is the intent. -/
theorem intentOf_again {identified : Identified Intent} (hsound : Sound P identified.value)
    (hunder : Under P identified) (hid : id ≠ [])
    (hfree : ∀ r ∈ references identified.value, r ≠ SELF → canonicalWireId r ≠ canonicalWireId id) :
    intentOf P id (controlOf identified.value) identified.value.document = .ok identified := by
  obtain ⟨cid, intent⟩ := identified
  have hthid : nullable (.scalar (textOrNull (controlOf intent).thid)) (lit "thid") nonEmpty =
      .ok (controlOf intent).thid := by
    refine Document.nullable_text (.inl rfl) fun t ht => nonEmpty_str ?_
    change t ∈ (if intent.thid = SELF then none else some intent.thid) at ht
    split at ht
    · cases ht
    · next hne =>
      cases ht
      exact hne
  have hself : (controlOf intent).thid.elim SELF (selfOr id) = intent.thid := by
    change (if intent.thid = SELF then none else some intent.thid).elim SELF (selfOr id) = intent.thid
    split
    · next h => exact h.symm
    · exact selfOr_free (hfree _ List.mem_cons_self)
  have htargets : (intent.pleaseAck.map fun targets => targets.map (selfOr id)) = intent.pleaseAck := by
    cases hack : intent.pleaseAck with
    | none => rfl
    | some targets =>
      refine congrArg some ((List.map_congr_left fun r hr => ?_).trans (List.map_id _))
      exact selfOr_free (hfree r (List.mem_cons_of_mem _ (by rw [hack]; exact hr)))
  have hack : nullable (stringsOrNull intent.pleaseAck) (lit "pleaseAck") strings = .ok intent.pleaseAck := by
    cases intent.pleaseAck with
    | none => rfl
    | some targets => exact nullable_some (fun h => by cases h) (fun h => by cases h) (strings_map targets)
  obtain ⟨v, hijson, hv⟩ := hsound.copied
  have hcopy : copyOf P (controlOf intent).headers (lit "headers") = .ok (.object intent.headers) := by
    change copyOf P (.object intent.headers) (lit "headers") = _
    rw [hv]
    exact copyOf_canonical hijson
  have hcreated : nullable (.scalar (numberOrNull intent.createdTime)) (lit "createdTime") epochSeconds =
      .ok intent.createdTime :=
    Document.nullable_number (.inl rfl) fun x hx => epochSeconds_number (hsound.createdTime x hx)
  have hexpires : nullable (.scalar (numberOrNull intent.expiresTime)) (lit "expiresTime") epochSeconds =
      .ok intent.expiresTime :=
    Document.nullable_number (.inl rfl) fun x hx => epochSeconds_number (hsound.expiresTime x hx)
  have hpthid : nullable (.scalar (textOrNull intent.pthid)) (lit "pthid") nonEmpty = .ok intent.pthid :=
    Document.nullable_text (.inl rfl) fun t ht => nonEmpty_str (hsound.pthid t ht)
  have hlist : nullable (.array (intent.ack.map .str)) (lit "ack") strings = .ok (some intent.ack) :=
    nullable_some (fun h => by cases h) (fun h => by cases h) (strings_map intent.ack)
  refine bind_eq_ok.mpr ⟨id, nonEmpty_str hid, ?_⟩
  refine bind_eq_ok.mpr ⟨_, hthid, ?_⟩
  refine bind_eq_ok.mpr ⟨_, hcreated, ?_⟩
  refine bind_eq_ok.mpr ⟨_, hexpires, ?_⟩
  refine bind_eq_ok.mpr ⟨(), hsound.expiry, ?_⟩
  refine refuse_bind_eq_ok.mpr ⟨fun h => Bool.false_ne_true (h.symm.trans hsound.document), ?_⟩
  refine bind_eq_ok.mpr ⟨intent.type, nonEmpty_str hsound.type, ?_⟩
  refine bind_eq_ok.mpr ⟨_, hpthid, ?_⟩
  refine bind_eq_ok.mpr ⟨_, hack, ?_⟩
  refine bind_eq_ok.mpr ⟨_, hlist, ?_⟩
  refine bind_eq_ok.mpr ⟨_, hcopy, ?_⟩
  refine bind_eq_ok.mpr ⟨_, checkHeaders_object hsound.headers, ?_⟩
  rw [hself, htargets]
  exact bind_eq_ok.mpr ⟨cid, hunder, rfl⟩

end Intents

/-! ## Documents -/

section Documents

variable {body attachments : JsValue} {message : StoredMessage} {document : StoredMessageDocument}

/-- A document as storing it left it, or as it was read back from its object. -/
def Kept (P : Packages) (message : StoredMessage) (document : StoredMessageDocument) : Prop :=
  document = message.document ∨ ∃ parsed, parseStrict P message.bytes.bytes false = .ok (some parsed) ∧
    readStoredDocument (ofJson parsed) = .ok document

/-- Either is made of values that are stored under the CIDs of the message. -/
theorem stored_of_kept (hbody : body.OwnKeys) (hattachments : attachments.OwnKeys)
    (hstore : storeMessage P B body attachments = .ok message) (hkept : Kept P message document) :
    ∃ members pairs, document = ⟨ofJson (.object members), pairs.map Prod.fst⟩ ∧
      (∀ a ∈ pairs, ∃ payload, Document.Backed P a.1 payload) ∧
      (∀ a ∈ pairs, a.1.data.jws = ofJson a.2) ∧
      IJson 0 (Document.documentJson (.object members) pairs) ∧
      message.bytes.bytes = EventStore.canonicalBytes P (Document.documentJson (.object members) pairs) ∧
      message.bodyCid = Document.rawCidOfBytes P message.bytes ∧
      message.attachmentCids = Document.rootsOf pairs := by
  obtain ⟨members, pairs, hs⟩ := Document.stored_of_store hbody hattachments hstore
  have hbacked : ∀ a ∈ pairs, ∃ payload, Document.Backed P a.1 payload := fun a ha => by
    obtain ⟨payload, hp, -⟩ := hs.backed a ha
    exact ⟨payload, hp⟩
  rcases hkept with rfl | ⟨parsed, hparsed, hread⟩
  · exact ⟨members, pairs, hs.document, hbacked, hs.jws, hs.ijson, hs.bytes, hs.bodyCid, hs.attachmentCids⟩
  · -- what was read back is the document in canonical form
    rw [hs.bytes, EventStore.parseStrict_canonicalBytes hs.ijson false] at hparsed
    cases hparsed
    rw [Document.read_document hbacked] at hread
    cases hread
    obtain ⟨members', hmembers⟩ : ∃ members', (Json.object members).canonical = .object members' :=
      ⟨_, by rw [Json.canonical]⟩
    have hcanonical := Document.canonical_document (Json.object members) pairs
    rw [hmembers] at hcanonical
    refine ⟨members', Document.readBack pairs, ?_, fun a ha => ?_, fun a ha => ?_,
      .of_canonical (hcanonical ▸ hs.ijson.canonical), ?_, hs.bodyCid, ?_⟩
    · rw [hmembers, Document.readBack, List.map_map]
      rfl
    · obtain ⟨b, hb, rfl⟩ := List.mem_map.mp ha
      obtain ⟨payload, hp⟩ := hbacked b hb
      exact ⟨payload, hp.canonical b.2⟩
    · obtain ⟨b, -, rfl⟩ := List.mem_map.mp ha
      obtain ⟨⟨descriptor, data⟩, j⟩ := b
      cases data with
      | inline kind root hash jws => rfl
      | links urls hash jws => rfl
    · rw [hs.bytes, ← EventStore.canonicalBytes_canonical, ← hcanonical,
        EventStore.canonicalBytes_canonical]
    · have hroot (a : Document.StoredAttachment × Json) :
          (a.1.canonical a.2).data.root? = a.1.data.root? := Document.root?_canonical a.1 a.2
      rw [hs.attachmentCids, Document.rootsOf, Document.rootsOf, Document.readBack, List.map_map,
        List.filterMap_map, List.filterMap_map]
      exact congrArg _ (List.filterMap_congr fun a _ => (hroot a).symm)

/-- The document is under the message's CID, and so is what its wire forms are stored as. -/
theorem stores_again (hbody : body.OwnKeys) (hattachments : attachments.OwnKeys)
    (hstore : storeMessage P B body attachments = .ok message) (hkept : Kept P message document)
    {payloadOf : Cid → Option Uint8Array} {wires : List JsValue}
    (hwires : wireAttachments P B payloadOf document.attachments = .ok wires) :
    documentCidOf P document = .ok message.bodyCid ∧
      ∃ again, storeMessage P B document.body (if wires = [] then .undefined else .array wires) =
          .ok again ∧ again.bodyCid = message.bodyCid ∧ again.attachmentCids = message.attachmentCids := by
  obtain ⟨members, pairs, rfl, hbacked, hjws, hijson, hbytes, hcid, hcids⟩ :=
    stored_of_kept hbody hattachments hstore hkept
  constructor
  · have hcanonical : Document.canonicalDocument P ⟨ofJson (.object members), pairs.map Prod.fst⟩ =
        .ok message.bytes := by
      refine Document.canonicalized_of_canonicalize ?_ _
      rw [Document.document_value hjws, EventStore.canonicalize_ofJson hijson, hbytes]
    rw [hcid]
    exact bind_eq_ok.mpr ⟨_, hcanonical, rfl⟩
  · obtain ⟨again, hagain, hbodyCid, hattachmentCids⟩ :=
      Document.store_again hbacked hjws hijson hbytes hwires
    refine ⟨again, ?_, hbodyCid.trans hcid.symm, hattachmentCids.trans hcids.symm⟩
    split
    · next hnil =>
      rw [hnil] at hagain
      exact hagain
    · exact hagain

end Documents

/-! ## Plaintexts -/

section Plaintexts

variable {body attachments : JsValue} {message : StoredMessage} {document : StoredMessageDocument}
  {control : ControlHeaders} {identified : Identified Intent} {addressing : Addressing}
  {payloadOf : Cid → Option Uint8Array} {plaintext : JsValue} {plaintextCid : Cid}

variable {headers : List (JsString × JsValue)} {intent : Intent} {wires : List JsValue}

/-- The members of a plaintext. -/
def plainMembers (headers : List (JsString × JsValue)) (intent : Intent) (id : JsString) (body : JsValue)
    (addressing : Addressing) (wires : List JsValue) : List (JsString × JsValue) :=
  headers ++ given (wireFields intent id body addressing wires)

/-- The names of the fields are reserved, and differ. -/
theorem fields_reserved : (∀ name ∈ (wireFields intent id body addressing wires).map Prod.fst,
    name ∈ RESERVED_HEADERS ∧ name ≠ lit "return_route") ∧
      ((wireFields intent id body addressing wires).map Prod.fst).Nodup := by
  have hnames : (wireFields intent id body addressing wires).map Prod.fst =
      [lit "typ", lit "id", lit "type", lit "from", lit "to", lit "created_time", lit "expires_time",
        lit "thid", lit "pthid", lit "please_ack", lit "ack", lit "from_prior", lit "body",
        lit "attachments"] := rfl
  rw [hnames]
  decide

/-- A field of a plaintext is found by its name. -/
theorem get_field (hheaders : ∀ m ∈ headers, m.1 ∉ RESERVED_HEADERS)
    {field : JsString × Option JsValue} (hfield : field ∈ wireFields intent id body addressing wires) :
    get (plainMembers headers intent id body addressing wires) field.1 = field.2.getD .undefined :=
  get_given fields_reserved.2 (fun m hm hin => hheaders m hm (fields_reserved.1 _ hin).1) hfield

/-- What is no field is a header. -/
theorem filter_plainMembers (hheaders : ∀ m ∈ headers, m.1 ∉ RESERVED_HEADERS) :
    ((plainMembers headers intent id body addressing wires).filter fun m => m.1 ∉ RESERVED_HEADERS) =
      headers := by
  rw [plainMembers, List.filter_append, List.filter_eq_self.mpr, List.filter_eq_nil_iff.mpr,
    List.append_nil]
  · intro m hm hout
    exact of_decide_eq_true hout (fields_reserved.1 _ (names_given hm)).1
  · exact fun m hm => decide_eq_true (hheaders m hm)

theorem no_return_route (hheaders : ∀ m ∈ headers, m.1 ∉ RESERVED_HEADERS) :
    ¬ hasOwn (plainMembers headers intent id body addressing wires) (lit "return_route") = true := by
  intro hown
  obtain ⟨m, hm, hname⟩ := List.mem_map.mp (Document.hasOwn_iff.mp hown)
  rcases List.mem_append.mp hm with hm | hm
  · refine hheaders m hm ?_
    rw [hname]
    decide
  · exact (fields_reserved.1 _ (names_given hm)).2 hname

theorem plaintextTyp_str : plaintextTyp (.str PLAINTEXT_TYP) «at» = .ok PLAINTEXT_TYP := by
  rw [JsValue.str, plaintextTyp, if_pos rfl]
  rfl

theorem did_str {d : JsString} (h : isDid d = true) : did (.str d) «at» = .ok d := by
  rw [JsValue.str, did, if_pos h]
  rfl

theorem str_ne (s : JsString) : JsValue.str s ≠ .undefined ∧ JsValue.str s ≠ .scalar .null :=
  ⟨(by rintro ⟨⟩), (by rintro ⟨⟩)⟩

theorem array_ne (l : List JsValue) : JsValue.array l ≠ .undefined ∧ JsValue.array l ≠ .scalar .null :=
  ⟨(by rintro ⟨⟩), (by rintro ⟨⟩)⟩

theorem number_ne (x : Binary64) :
    JsValue.scalar (.number x) ≠ .undefined ∧ JsValue.scalar (.number x) ≠ .scalar .null :=
  ⟨(by rintro ⟨⟩), (by rintro ⟨⟩)⟩

/-- The members of a plaintext read, field by field. -/
theorem read_plainMembers {again : StoredMessage} (hsound : Sound P intent) (hid : id ≠ [])
    (hfrom : isDid addressing.from = true) (hto : ∀ d ∈ addressing.to, isDid d = true)
    (hstored : storeMessage P B body (if wires = [] then .undefined else .array wires) = .ok again)
    (hintent : intentOf P id (controlOf intent) again.bodyCid = .ok identified)
    (hcid : plaintextCidOf P (.object (plainMembers intent.headers intent id body addressing wires)) =
      .ok plaintextCid) :
    readPlaintext P B (.object (plainMembers intent.headers intent id body addressing wires)) =
      .ok ⟨.object (plainMembers intent.headers intent id body addressing wires), plaintextCid, id,
        controlOf intent, identified, again, some PLAINTEXT_TYP, some addressing.from,
        some addressing.to, addressing.fromPrior⟩ := by
  have hheaders := hsound.headers
  have hget : ∀ field ∈ wireFields intent id body addressing wires,
      get (plainMembers intent.headers intent id body addressing wires) field.1 =
        field.2.getD .undefined := fun _ hfield => get_field hheaders hfield
  simp only [wireFields, List.forall_mem_cons] at hget
  obtain ⟨htyp, hidField, htype, hfromField, htoField, hcreated, hexpires, hthid, hpthid, hpleaseAck, hack,
    hfromPrior, hbody, hattachments, -⟩ := hget
  have hwires : (if wires = [] then none else some (JsValue.array wires)).getD .undefined =
      if wires = [] then .undefined else .array wires := by
    split
    · rfl
    · rfl
  have hown : (if intent.thid = SELF then none else some (JsValue.str intent.thid)) =
      (controlOf intent).thid.map .str := by
    change _ = (if intent.thid = SELF then none else some intent.thid).map JsValue.str
    split
    · rfl
    · rfl
  have hlist : (if intent.ack = [] then none else some (JsValue.array (intent.ack.map .str))) =
      (if intent.ack = [] then none else some intent.ack).map fun targets => .array (targets.map .str) := by
    split
    · rfl
    · rfl
  have hnil : (if intent.ack = [] then none else some intent.ack).getD [] = intent.ack := by
    split
    · next h => exact h.symm
    · rfl
  rw [hwires] at hattachments
  rw [hown] at hthid
  rw [hlist] at hack
  obtain ⟨v, hijson, hv⟩ := hsound.copied
  refine refuse_bind_eq_ok.mpr ⟨no_return_route hheaders, ?_⟩
  refine bind_eq_ok.mpr ⟨id, ?_, ?_⟩
  · rw [hidField]
    exact nonEmpty_str hid
  refine bind_eq_ok.mpr ⟨intent.type, ?_, ?_⟩
  · rw [htype]
    exact nonEmpty_str hsound.type
  refine bind_eq_ok.mpr ⟨some PLAINTEXT_TYP, ?_, ?_⟩
  · rw [htyp]
    exact nullable_some (str_ne _).1 (str_ne _).2 plaintextTyp_str
  refine bind_eq_ok.mpr ⟨some addressing.from, ?_, ?_⟩
  · rw [hfromField]
    exact nullable_some (str_ne _).1 (str_ne _).2 (did_str hfrom)
  refine bind_eq_ok.mpr ⟨some addressing.to, ?_, ?_⟩
  · rw [htoField]
    exact nullable_some (array_ne _).1 (array_ne _).2 (didsFrom_map hto 0)
  refine bind_eq_ok.mpr ⟨(controlOf intent).thid, ?_, ?_⟩
  · rw [hthid]
    refine nullable_getD (fun t _ => str_ne t) fun t ht => nonEmpty_str ?_
    change t ∈ (if intent.thid = SELF then none else some intent.thid) at ht
    split at ht
    · cases ht
    · next hne =>
      cases ht
      exact hne
  refine bind_eq_ok.mpr ⟨intent.pthid, ?_, ?_⟩
  · rw [hpthid]
    exact nullable_getD (fun t _ => str_ne t) fun t ht => nonEmpty_str (hsound.pthid t ht)
  refine bind_eq_ok.mpr ⟨intent.createdTime, ?_, ?_⟩
  · rw [hcreated]
    exact nullable_getD (fun x _ => number_ne x) fun x hx => epochSeconds_number (hsound.createdTime x hx)
  refine bind_eq_ok.mpr ⟨intent.expiresTime, ?_, ?_⟩
  · rw [hexpires]
    exact nullable_getD (fun x _ => number_ne x) fun x hx => epochSeconds_number (hsound.expiresTime x hx)
  refine bind_eq_ok.mpr ⟨(), hsound.expiry, ?_⟩
  refine bind_eq_ok.mpr ⟨intent.pleaseAck, ?_, ?_⟩
  · rw [hpleaseAck]
    exact nullable_getD (fun l _ => array_ne _) fun l _ => strings_map l
  refine bind_eq_ok.mpr ⟨if intent.ack = [] then none else some intent.ack, ?_, ?_⟩
  · rw [hack]
    exact nullable_getD (fun l _ => array_ne _) fun l _ => strings_map l
  refine bind_eq_ok.mpr ⟨addressing.fromPrior, ?_, ?_⟩
  · rw [hfromPrior]
    exact nullable_getD (fun t _ => str_ne t) fun t _ => rfl
  refine bind_eq_ok.mpr ⟨again, ?_, ?_⟩
  · rw [hbody, hattachments]
    exact hstored
  refine bind_eq_ok.mpr ⟨.object intent.headers, ?_, ?_⟩
  · rw [filter_plainMembers hheaders, hv]
    exact copyOf_canonical hijson
  refine bind_eq_ok.mpr ⟨intent.headers, checkHeaders_object hheaders, ?_⟩
  rw [hnil]
  exact bind_eq_ok.mpr ⟨identified, hintent, bind_eq_ok.mpr ⟨plaintextCid, hcid, rfl⟩⟩

/-- What is sent reads back: the plaintext of an intent, under an ID it does not refer to, is read as
that intent under its CID, with the addressing it was given and the document it names. -/
theorem plaintexts_read_back (hintent : intentOf P own control message.bodyCid = .ok identified)
    (hbody : body.OwnKeys) (hattachments : attachments.OwnKeys)
    (hstore : storeMessage P B body attachments = .ok message) (hkept : Kept P message document)
    (hfree : ∀ r ∈ references identified.value, r ≠ SELF → canonicalWireId r ≠ canonicalWireId id)
    (hfrom : isDid addressing.from = true) (hto : ∀ d ∈ addressing.to, isDid d = true)
    (hwire : wirePlaintext P B identified.value id document addressing payloadOf = .ok plaintext)
    (hcid : plaintextCidOf P plaintext = .ok plaintextCid) :
    ∃ read, readPlaintext P B plaintext = .ok read ∧ read.plaintextCid = plaintextCid ∧
      read.id = id ∧ read.control = controlOf identified.value ∧ read.intent = identified ∧
      read.stored.bodyCid = message.bodyCid ∧ read.stored.attachmentCids = message.attachmentCids ∧
      read.typ = some PLAINTEXT_TYP ∧ read.from = some addressing.from ∧
      read.to = some addressing.to ∧ read.fromPrior = addressing.fromPrior := by
  obtain ⟨hsound, hunder⟩ := intentOf_sound hintent
  have hdocument : identified.value.document = message.bodyCid := document_of_intentOf hintent
  obtain ⟨cid, intent⟩ := identified
  obtain ⟨_, -, hwire⟩ := bind_eq_ok.mp hwire
  obtain ⟨-, hwire⟩ := refuse_bind_eq_ok.mp hwire
  obtain ⟨headers, hheaders, hwire⟩ := bind_eq_ok.mp hwire
  obtain ⟨_, hid, hwire⟩ := bind_eq_ok.mp hwire
  obtain ⟨wires, hwires, hwire⟩ := bind_eq_ok.mp hwire
  cases hwire
  obtain ⟨hobject, hreserved⟩ := checkHeaders_eq_ok hheaders
  cases hobject
  obtain ⟨hne, hsame⟩ := nonEmpty_eq_ok hid
  cases hsame
  obtain ⟨-, again, hagain, hbodyCid, hattachmentCids⟩ := stores_again hbody hattachments hstore hkept hwires
  have hintent' := intentOf_again hsound hunder hne hfree
  rw [hdocument, ← hbodyCid] at hintent'
  have hread := read_plainMembers hsound hne hfrom hto hagain hintent' hcid
  exact ⟨_, hread, rfl, rfl, rfl, rfl, hbodyCid, hattachmentCids, rfl, rfl, rfl, rfl⟩

end Plaintexts

/-! ## A note

A note whose body says hi and that asks for its own acknowledgement, recorded under one ID and sent
under another. -/

/-- The number of the intent's version as it is written; the others as their patterns. -/
def noteNumbers : Json.NumberText where
  text x := if x = INTENT_VERSION then lit "1" else EventStore.patternText x
  value s := if s = lit "1" then INTENT_VERSION else EventStore.patternNumbers.value s
  isNumber_text x _ := by
    split
    · rfl
    · exact EventStore.isNumber_patternText x
  value_text x hx := by
    by_cases h : x = INTENT_VERSION
    · rw [if_pos h, if_pos rfl, h]
      exact (Document.unsigned_count 1).symm
    · have hne : EventStore.patternText x ≠ lit "1" := by
        intro heq
        have hcons : (0x31 :: 0x65 :: EventStore.lowDigits x.unsigned.bits : JsString) = [0x31] := heq
        cases hcons
      rw [if_neg h, if_neg hne]
      exact EventStore.patternNumbers.value_text x hx

def noteVisits (text : JsString) : List EventStore.Visit :=
  match Json.readText noteNumbers text with
  | some ts => ts.map EventStore.visitOf
  | none => [.error .invalidSymbol 0]

def noteDocumentDigest : EventStore.Digest :=
  ⟨[0x2B, 0x08, 0x1A, 0xBE, 0x5E, 0x1D, 0x10, 0x06, 0x21, 0x36, 0x74, 0x23, 0xE3, 0xE7, 0x8F, 0x85,
    0x1A, 0x13, 0x2F, 0x17, 0xD1, 0x26, 0x14, 0x51, 0x46, 0xCD, 0xF8, 0x86, 0xD4, 0xEB, 0x74, 0xF4], rfl⟩

def noteProjectionDigest : EventStore.Digest :=
  ⟨[0x1D, 0x61, 0x9C, 0x88, 0x21, 0xAD, 0xD3, 0x92, 0x96, 0xC1, 0x7B, 0x93, 0xB2, 0x9F, 0x8B, 0xCA,
    0xD7, 0x06, 0x1B, 0xC0, 0x2F, 0x70, 0x95, 0xD2, 0x1A, 0xF7, 0x97, 0xA2, 0x49, 0x99, 0x33, 0x78], rfl⟩

def notePlaintextDigest : EventStore.Digest :=
  ⟨[0xDA, 0x40, 0xEC, 0x4A, 0xB4, 0x62, 0xA7, 0xC3, 0xA2, 0xA2, 0x90, 0x4A, 0x17, 0x47, 0xB2, 0x96,
    0xF6, 0x80, 0x02, 0x5B, 0xBC, 0x33, 0xDC, 0x97, 0x6A, 0x68, 0x6B, 0x68, 0x14, 0x2B, 0x2D, 0x64], rfl⟩

def notePackages : Packages where
  numbers := noteNumbers
  serialize := Json.canonicalText noteNumbers
  serialize_eq _ _ := rfl
  visit := noteVisits
  visit_tokens text ts h := by
    rw [noteVisits, h, List.map_map]
    exact List.map_congr_left fun t _ => EventStore.token_visitOf t
  visit_error text h := by
    rw [noteVisits, h]
    exact List.mem_cons_self
  sha256 bytes := if bytes.length = 39 then noteDocumentDigest else
    if bytes.length = 218 then noteProjectionDigest else notePlaintextDigest

def noteBody : JsValue := .object [(lit "text", .str (lit "hi"))]

def noteControl : ControlHeaders where
  type := lit "note"
  thid := none
  pthid := none
  createdTime := none
  expiresTime := none
  pleaseAck := some [lit "M1"]
  ack := []
  headers := .object []

def noteAddressing : Addressing := ⟨lit "did:example:a", [lit "did:example:b"], none⟩

set_option maxRecDepth 20000 in
theorem note_sent : ∃ message identified plaintext plaintextCid,
    storeMessage notePackages Document.base64url noteBody .undefined = .ok message ∧
      intentOf notePackages (lit "m1") noteControl message.bodyCid = .ok identified ∧
      references identified.value = [SELF, SELF] ∧
      wirePlaintext notePackages Document.base64url identified.value (lit "m2") message.document
        noteAddressing (fun _ => none) = .ok plaintext ∧
      plaintextCidOf notePackages plaintext = .ok plaintextCid := ⟨_, _, _, _, rfl, rfl, rfl, rfl, rfl⟩

theorem plaintexts_read_back_example : ∃ (message : StoredMessage) (identified : Identified Intent)
    (plaintext : JsValue) (read : ReadPlaintext),
    intentOf notePackages (lit "m1") noteControl message.bodyCid = .ok identified ∧
      wirePlaintext notePackages Document.base64url identified.value (lit "m2") message.document
        noteAddressing (fun _ => none) = .ok plaintext ∧
      readPlaintext notePackages Document.base64url plaintext = .ok read ∧ read.intent = identified ∧
      read.id = lit "m2" ∧ read.from = some (lit "did:example:a") := by
  obtain ⟨message, identified, plaintext, plaintextCid, hstore, hintent, hreferences, hwire, hcid⟩ := note_sent
  have hbody : noteBody.OwnKeys :=
    .object (List.nodup_singleton _) (List.forall_mem_singleton.mpr (.scalar _))
  have hto : ∀ d ∈ noteAddressing.to, isDid d = true := List.forall_mem_singleton.mpr (by decide)
  obtain ⟨read, hread, -, hid, -, hsame, -, -, -, hfrom, -⟩ := plaintexts_read_back hintent hbody .undefined
    hstore (.inl rfl) (fun r hr hne => by
      rw [hreferences] at hr
      simp only [List.mem_cons, List.not_mem_nil, or_false, or_self] at hr
      exact absurd hr hne) (by decide) hto hwire hcid
  exact ⟨message, identified, plaintext, read, hintent, hwire, hread, hsame, hid, hfrom⟩

end Estoc.Vault.Plaintext
