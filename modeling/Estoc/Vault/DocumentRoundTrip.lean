import Estoc.EventStore.Agreement
import Estoc.Lib.Base64
import Estoc.Vault.Document

/-!
# Stored documents come back

What storing a message makes of each attachment, `Wf` and `Backs`, is enough to put the
attachment back on the wire and to store it again as it was. What reading the canonical
bytes of the document gives is the document with every member list in another order and
no sign on a zero; both have one canonical form, so one CID.
-/

set_option linter.unusedSectionVars false

namespace Estoc.Vault.Document

open Json (lit)
open Utf16 (JsString)
open Checked (refuse refuse_of_not refuse_bind_eq_ok bind_eq_ok ok_bind pure_eq_ok)
open EventStore (JsValue JsError Packages canonicalize canonicalText parseStrict decimal isRawCid
  rawCidFromDigest IJson canonicalBytes)
open EventStore.JsValue (get hasOwn ofJson ofItems ofMembers OwnKeys)

/-! ## Members -/

section Members

variable {members : List (JsString × JsValue)} {name : JsString} {value : JsValue}

theorem lookup_of_mem {α : Type} {l : List (JsString × α)} (hn : (l.map Prod.fst).Nodup)
    {a : α} (h : (name, a) ∈ l) : l.lookup name = some a := by
  induction l with
  | nil => cases h
  | cons m l ih =>
      obtain ⟨hout, hn⟩ := List.nodup_cons.mp hn
      rw [List.lookup_cons]
      rcases List.mem_cons.mp h with rfl | h
      · rw [beq_self_eq_true]
      · have hne : (name == m.1) = false :=
          beq_eq_false_iff_ne.mpr fun e => hout (e ▸ List.mem_map_of_mem h)
        rw [hne]
        exact ih hn h

theorem get_of_mem (hn : (members.map Prod.fst).Nodup) (h : (name, value) ∈ members) :
    get members name = value := by
  rw [JsValue.get, lookup_of_mem hn h]
  rfl

theorem lookup_of_notMem {α : Type} {l : List (JsString × α)} (h : name ∉ l.map Prod.fst) :
    l.lookup name = none := by
  rw [List.lookup_eq_none_iff]
  exact fun m hm => bne_iff_ne.mpr fun e => h (List.mem_map.mpr ⟨m, hm, e.symm⟩)

theorem get_of_notMem (h : name ∉ members.map Prod.fst) : get members name = .undefined := by
  rw [JsValue.get, lookup_of_notMem h]
  rfl

theorem hasOwn_iff : hasOwn members name = true ↔ name ∈ members.map Prod.fst := by
  constructor
  · intro h
    by_contra hout
    rw [hasOwn, lookup_of_notMem hout] at h
    cases h
  · intro h
    rw [hasOwn, Option.isSome_iff_ne_none, Ne, List.lookup_eq_none_iff]
    obtain ⟨m, hm, rfl⟩ := List.mem_map.mp h
    exact fun hall => by simpa using hall m hm

theorem ownKeys_get (h : ∀ m ∈ members, m.2.OwnKeys) : (get members name).OwnKeys := by
  rw [JsValue.get]
  cases hl : members.lookup name with
  | none => exact .undefined
  | some v =>
      obtain ⟨m, hm, _, rfl⟩ : ∃ m ∈ members, m.1 = name ∧ m.2 = v := by
        induction members with
        | nil => cases hl
        | cons m l ih =>
            rw [List.lookup_cons] at hl
            split at hl
            · next heq =>
              exact ⟨m, List.mem_cons_self, (beq_iff_eq.mp heq).symm, Option.some.inj hl⟩
            · obtain ⟨x, hx, hxn⟩ := ih (fun x hx => h x (List.mem_cons_of_mem _ hx)) hl
              exact ⟨x, List.mem_cons_of_mem _ hx, hxn⟩
      exact h m hm

/-- A member that may be left out where it is null. -/
def Carried (members : List (JsString × JsValue)) (m : JsString × Scalar) : Prop :=
  get members m.1 = .scalar m.2 ∨ (m.2 = .null ∧ get members m.1 = .undefined)

theorem nullable_text {o : Option JsString} {«at» : JsString}
    {check : JsValue → JsString → Checks JsString}
    (h : value = .scalar (textOrNull o) ∨ (textOrNull o = .null ∧ value = .undefined))
    (hcheck : ∀ s ∈ o, check (.str s) «at» = .ok s) : nullable value «at» check = .ok o := by
  cases o with
  | none => rcases h with rfl | ⟨_, rfl⟩ <;> rfl
  | some s =>
      rcases h with rfl | ⟨h, _⟩
      · have hs := hcheck s rfl
        rw [JsValue.str] at hs
        simp only [nullable, textOrNull, hs, ok_bind, pure_eq_ok]
      · cases h

theorem nullable_number {o : Option Binary64} {«at» : JsString}
    {check : JsValue → JsString → Checks Binary64}
    (h : value = .scalar (numberOrNull o) ∨ (numberOrNull o = .null ∧ value = .undefined))
    (hcheck : ∀ x ∈ o, check (.scalar (.number x)) «at» = .ok x) :
    nullable value «at» check = .ok o := by
  cases o with
  | none => rcases h with rfl | ⟨_, rfl⟩ <;> rfl
  | some x =>
      rcases h with rfl | ⟨h, _⟩
      · simp only [nullable, numberOrNull, hcheck x rfl, ok_bind, pure_eq_ok]
      · cases h

/-- What a check let through, where a value is there. -/
theorem nullable_eq_ok {α : Type} {«at» : JsString} {check : JsValue → JsString → Checks α}
    {o : Option α} (h : nullable value «at» check = .ok o) :
    ∀ a ∈ o, check value «at» = .ok a := by
  intro a ha
  rw [nullable.eq_def] at h
  split at h
  · cases h; cases ha
  · cases h; cases ha
  · obtain ⟨b, hb, h⟩ := bind_eq_ok.mp h
    cases h
    cases ha
    exact hb

end Members

/-! ## Descriptors -/

namespace Descriptor

/-- What the checks of the members let through. -/
structure Valid (d : Descriptor) : Prop where
  id : ∀ s ∈ d.id, s ≠ [] ∧ s.all UNRESERVED = true
  lastmod_time : ∀ x ∈ d.lastmod_time, x.safeInteger?.isSome = true
  byte_count : ∀ x ∈ d.byte_count, x.safeInteger?.any (0 ≤ ·) = true

variable {d : Descriptor} {members : List (JsString × JsValue)}

theorem read_of_carried (hv : d.Valid) (hc : ∀ m ∈ d.scalars, Carried members m)
    («at» : JsString) : descriptorMembers members «at» = .ok d := by
  simp only [scalars, List.forall_mem_cons, Carried] at hc
  obtain ⟨hid, hdescription, hfilename, hmedia, hformat, htime, hcount, _⟩ := hc
  have htext : ∀ (s : JsString) («at» : JsString), text (.str s) «at» = .ok s := fun _ _ => rfl
  simp only [descriptorMembers, member]
  rw [nullable_text hid fun s hs => ?_, ok_bind, nullable_text hdescription fun s _ => htext s _,
    ok_bind, nullable_text hfilename fun s _ => htext s _, ok_bind,
    nullable_text hmedia fun s _ => htext s _, ok_bind,
    nullable_text hformat fun s _ => htext s _, ok_bind, nullable_number htime fun x hx => ?_,
    ok_bind, nullable_number hcount fun x hx => ?_, ok_bind]
  · rfl
  · rw [count, if_pos (hv.byte_count x hx)]
    rfl
  · rw [seconds, if_pos (hv.lastmod_time x hx)]
    rfl
  · rw [JsValue.str, attachmentId, if_pos (hv.id s hs)]
    rfl

theorem valid_of_read {«at» : JsString} (h : descriptorMembers members «at» = .ok d) : d.Valid := by
  simp only [descriptorMembers, member] at h
  obtain ⟨id, hid, h⟩ := bind_eq_ok.mp h
  obtain ⟨description, _, h⟩ := bind_eq_ok.mp h
  obtain ⟨filename, _, h⟩ := bind_eq_ok.mp h
  obtain ⟨media_type, _, h⟩ := bind_eq_ok.mp h
  obtain ⟨format, _, h⟩ := bind_eq_ok.mp h
  obtain ⟨lastmod_time, htime, h⟩ := bind_eq_ok.mp h
  obtain ⟨byte_count, hcount, h⟩ := bind_eq_ok.mp h
  cases h
  refine ⟨fun s hs => ?_, fun x hx => ?_, fun x hx => ?_⟩
  · have hs := nullable_eq_ok hid s hs
    rw [attachmentId.eq_def] at hs
    split at hs
    · split at hs
      · next hok => cases hs; exact hok
      · cases hs
    · cases hs
  · have hx := nullable_eq_ok htime x hx
    rw [seconds.eq_def] at hx
    split at hx
    · split at hx
      · next hok => cases hx; exact hok
      · cases hx
    · cases hx
  · have hx := nullable_eq_ok hcount x hx
    rw [count.eq_def] at hx
    split at hx
    · split at hx
      · next hok => cases hx; exact hok
      · cases hx
    · cases hx

end Descriptor

/-! ## Payloads -/

section Payloads

variable {P : Packages} {B : Base64Url}

theorem arrayOf_bytes (a : Uint8Array) : arrayOf a.bytes = .ok a := by
  rw [arrayOf, newUint8Array_of_lt a.length_lt]

theorem arrayOf_eq_ok {bytes : List UInt8} {a : Uint8Array} (h : arrayOf bytes = .ok a) :
    a.bytes = bytes := by
  rw [arrayOf] at h
  split at h
  · next ha => cases h; exact newUint8Array_eq_ok ha
  · cases h

theorem canonicalized_eq_ok {value : JsValue} {notIJson : JsString} {a : Uint8Array}
    (h : canonicalized P value notIJson = .ok a) : canonicalize P value = .ok a.bytes := by
  rw [canonicalized] at h
  split at h
  · next bytes hbytes => rw [hbytes, arrayOf_eq_ok h]
  · cases h
  · cases h

theorem canonicalized_of_canonicalize {value : JsValue} {a : Uint8Array}
    (h : canonicalize P value = .ok a.bytes) (notIJson : JsString) :
    canonicalized P value notIJson = .ok a := by
  rw [canonicalized, h]
  exact arrayOf_bytes a

/-- A byte-order mark is no JSON. -/
theorem readText_byteOrderMark (N : Json.NumberText) (text : JsString) :
    Json.readText N (0xFEFF :: text) = none := by
  have hws : Json.skipWs (0xFEFF :: text) = 0xFEFF :: text := rfl
  have hword : Json.readWord N (0xFEFF :: text) = none := rfl
  rw [Json.readText, Json.readValue, hws]
  simp only [hword]
  rfl

/-- Bytes that were parsed are of the text they are compared as. -/
theorem decodedText_of_parsed {a : Uint8Array} {parsed : Option Json}
    (h : parseStrict P a.bytes false = .ok parsed) :
    Utf16.decodeUtf8 a.bytes = some (decodedText a) ∧
      EventStore.parseText P (decodedText a) false = .ok parsed := by
  rw [parseStrict] at h
  split at h
  · cases h
  · next text htext =>
    have hdecoded : decodedText a = text := by
      rw [decodedText, htext]
      cases text with
      | nil => rfl
      | cons u text =>
          simp only
          rw [if_neg]
          rintro rfl
          exact EventStore.parseText_of_unread (readText_byteOrderMark _ _) _ h
    rw [hdecoded]
    exact ⟨htext, h⟩

/-- A payload that is taken as canonical JSON is the canonical bytes of a value. -/
theorem canonicalJsonPayload_eq_ok {a : Uint8Array} {root : Cid} {value : JsValue}
    (h : canonicalJsonPayload P a root = .ok value) :
    ∃ v, IJson 0 v ∧ a.bytes = canonicalBytes P v := by
  obtain ⟨parsed, hparsed, h⟩ := bind_eq_ok.mp h
  obtain ⟨canonical, hcanonical, h⟩ := bind_eq_ok.mp h
  obtain ⟨heq, _⟩ := refuse_bind_eq_ok.mp h
  rw [ne_eq, not_not] at heq
  have hparsed : parseStrict P a.bytes false = .ok parsed := by
    cases hp : parseStrict P a.bytes false with
    | error e => rw [hp] at hparsed; cases hparsed
    | ok x => rw [hp] at hparsed; cases hparsed; rfl
  have hcanonical : canonicalText P (parsed.elim .undefined ofJson) = .ok canonical := by
    cases hp : canonicalText P (parsed.elim .undefined ofJson) with
    | error e => rw [hp] at hcanonical; cases hcanonical
    | ok x => rw [hp] at hcanonical; cases hcanonical; rfl
  obtain ⟨v, hv, _⟩ := bind_eq_ok.mp hcanonical
  have hijson := EventStore.admit_ijson _ _ _ _ hv
  have hbytes := EventStore.canonicalize_of_plain (P := P) hv
  rw [canonicalize, hcanonical, ok_bind, pure_eq_ok] at hbytes
  refine ⟨v, hijson, ?_⟩
  rw [← Except.ok.inj hbytes, heq]
  exact (Utf16.decodeUtf8_eq_some (decodedText_of_parsed hparsed).1).2.symm

/-- The canonical bytes of a value are taken, as the value in canonical form. -/
theorem canonicalJsonPayload_of_canonical {a : Uint8Array} {v : Json} (hv : IJson 0 v)
    (ha : a.bytes = canonicalBytes P v) (root : Cid) :
    canonicalJsonPayload P a root = .ok (ofJson v.canonical) := by
  have hparsed := EventStore.parseStrict_canonicalBytes (P := P) hv false
  rw [← ha] at hparsed
  have htext : decodedText a = Json.canonicalText P.numbers v := by
    have hpaired := Json.loneSurrogate_write (N := P.numbers) hv.canonical.paired
    have hdecoded := (decodedText_of_parsed hparsed).1
    rw [ha, canonicalBytes, Json.canonicalText, Utf16.decodeUtf8_encodeUtf8 hpaired] at hdecoded
    exact (Option.some.inj hdecoded).symm
  have hcanonical : canonicalText P (ofJson v.canonical) =
      .ok (Json.canonicalText P.numbers v) := by
    rw [canonicalText, EventStore.plainJson, EventStore.admit_ofJson hv.canonical, ok_bind,
      pure_eq_ok, P.serialize_eq _ hv.canonical, Json.canonicalText, Json.canonical_canonical,
      Json.canonicalText]
  rw [canonicalJsonPayload, hparsed]
  simp only [fromJs, ok_bind, Option.elim, hcanonical]
  rw [htext, refuse_of_not (fun h => h rfl)]
  rfl

/-! ## Data -/

/-- What storing and reading both see to. -/
def StoredAttachmentData.Valid (data : StoredAttachmentData) : Prop :=
  data.jws ≠ .undefined ∧ (∀ h ∈ data.hash, h ≠ []) ∧
    match data with
    | .inline _ root _ _ => isRawCid root = true
    | .links urls _ _ => urls ≠ [] ∧ ∀ u ∈ urls, u ≠ []

/-- The payload is what the data was stored for, as far as the data can tell. -/
def Backs (P : Packages) (payload : Option Uint8Array) : StoredAttachmentData → Prop
  | .inline kind root _ _ => ∃ bytes, payload = some bytes ∧ rawCidOfBytes P bytes = root ∧
      (kind = .json → ∃ v, IJson 0 v ∧ bytes.bytes = canonicalBytes P v)
  | .links _ _ _ => payload = none

/-- An attachment as storing one leaves it, with its payload. -/
structure Backed (P : Packages) (stored : StoredAttachment) (payload : Option Uint8Array) : Prop where
  valid : stored.toDescriptor.Valid
  data : stored.data.Valid
  backs : Backs P payload stored.data
  count : ∀ bytes ∈ payload, stored.byte_count = some (Binary64.ofInt bytes.length)

theorem multihash_of_ne {s : JsString} (h : s ≠ []) («at» : JsString) :
    multihash (.str s) «at» = .ok s := by
  match s, h with
  | u :: s, _ => rfl

theorem ne_of_multihash {value : JsValue} {«at» s : JsString} (h : multihash value «at» = .ok s) :
    s ≠ [] ∧ value = .str s := by
  rw [multihash.eq_def] at h
  split at h
  · cases h
    exact ⟨List.cons_ne_nil _ _, rfl⟩
  · cases h

theorem linkTexts_map {urls : List JsString} (h : ∀ u ∈ urls, u ≠ []) :
    linkTexts (urls.map .str) = some urls := by
  induction urls with
  | nil => rfl
  | cons url urls ih =>
      obtain ⟨hne, htail⟩ := List.forall_mem_cons.mp h
      match url, hne with
      | u :: s, _ =>
          rw [List.map_cons, JsValue.str, linkTexts, ih htail]
          rfl

theorem ne_of_linkTexts {elements : List JsValue} {urls : List JsString}
    (h : linkTexts elements = some urls) : (∀ u ∈ urls, u ≠ []) ∧ elements = urls.map .str := by
  induction elements generalizing urls with
  | nil =>
      cases h
      exact ⟨fun _ hu => (nomatch hu), rfl⟩
  | cons element elements ih =>
      rw [linkTexts.eq_def] at h
      split at h
      · next heq => cases heq
      · next u s rest heq =>
        obtain ⟨rfl, rfl⟩ := List.cons.inj heq
        obtain ⟨urls, hurls, rfl⟩ := Option.map_eq_some_iff.mp h
        obtain ⟨hne, hmap⟩ := ih hurls
        exact ⟨List.forall_mem_cons.mpr ⟨List.cons_ne_nil _ _, hne⟩, by rw [hmap]; rfl⟩
      · cases h

theorem links_of_ne {urls : List JsString} (hne : urls ≠ []) (h : ∀ u ∈ urls, u ≠ [])
    («at» : JsString) : links (.array (urls.map .str)) «at» = .ok urls := by
  rw [links, linkTexts_map h]
  match urls, hne with
  | _ :: _, _ => rfl

theorem ne_of_links {value : JsValue} {«at» : JsString} {urls : List JsString}
    (h : links value «at» = .ok urls) :
    urls ≠ [] ∧ (∀ u ∈ urls, u ≠ []) ∧ value = .array (urls.map .str) := by
  rw [links.eq_def] at h
  split at h
  · split at h
    · next hurls =>
      cases h
      obtain ⟨hne, rfl⟩ := ne_of_linkTexts hurls
      exact ⟨List.cons_ne_nil _ _, hne, rfl⟩
    · cases h
  · cases h

/-! ## The wire's members -/

theorem get_cons (name : JsString) (m : JsString × JsValue) (members : List (JsString × JsValue)) :
    get (m :: members) name = if name = m.1 then m.2 else get members name := by
  rw [JsValue.get, List.lookup_cons]
  split
  · next h => rw [if_pos (beq_iff_eq.mp h)]; rfl
  · next h => rw [if_neg (beq_eq_false_iff_ne.mp h)]; rfl

theorem unlessNull_cases (name : JsString) (value : JsValue) :
    (value = .scalar .null ∧ unlessNull name value = []) ∨
      (value ≠ .scalar .null ∧ unlessNull name value = [(name, value)]) := by
  by_cases h : value = .scalar .null
  · subst h
    exact Or.inl ⟨rfl, rfl⟩
  · refine Or.inr ⟨h, ?_⟩
    rw [unlessNull.eq_def]
    split
    · exact absurd rfl h
    · rfl

/-- The data of a wire attachment: the carrier, and what else is not null. -/
def wireData (carrier : JsString × JsValue) (data : StoredAttachmentData) :
    List (JsString × JsValue) :=
  carrier :: unlessNull (lit "hash") (.scalar (textOrNull data.hash)) ++
    unlessNull (lit "jws") data.jws

theorem carriers_apart {name : JsString} (h : name ∈ CARRIERS) :
    name ≠ lit "hash" ∧ name ≠ lit "jws" := by
  simp only [CARRIERS, List.mem_cons, List.not_mem_nil, or_false] at h
  rcases h with rfl | rfl | rfl <;> decide

/-- What is read of the data of a wire attachment. -/
theorem read_wireData {carrier : JsString × JsValue} (hc : carrier.1 ∈ CARRIERS)
    {data : StoredAttachmentData} (hd : data.Valid) :
    get (wireData carrier data) carrier.1 = carrier.2 ∧
      (∀ name ∈ CARRIERS, hasOwn (wireData carrier data) name = decide (name = carrier.1)) ∧
      (∀ «at», member (wireData carrier data) «at» (lit "hash") multihash = .ok data.hash) ∧
      jwsOf (wireData carrier data) = data.jws := by
  obtain ⟨hhash, hjws⟩ := carriers_apart hc
  have hapart : (lit "hash") ≠ lit "jws" := by decide
  have hother : ∀ name ∈ CARRIERS, hasOwn (wireData carrier data) name = decide (name = carrier.1) := by
    intro name hn
    obtain ⟨hnh, hnj⟩ := carriers_apart hn
    rw [Bool.eq_iff_iff, hasOwn_iff, wireData, decide_eq_true_eq]
    rcases unlessNull_cases (lit "hash") (.scalar (textOrNull data.hash)) with
        ⟨_, h⟩ | ⟨_, h⟩ <;>
      rcases unlessNull_cases (lit "jws") data.jws with ⟨_, j⟩ | ⟨_, j⟩ <;>
      simp [h, j, hnh, hnj]
  have hget : get (wireData carrier data) (lit "hash") = .scalar (textOrNull data.hash) ∨
      (textOrNull data.hash = .null ∧ get (wireData carrier data) (lit "hash") = .undefined) := by
    rw [wireData]
    rcases unlessNull_cases (lit "hash") (.scalar (textOrNull data.hash)) with
      ⟨hn, h⟩ | ⟨_, h⟩
    · right
      rw [h]
      refine ⟨by simpa using hn, get_of_notMem ?_⟩
      rcases unlessNull_cases (lit "jws") data.jws with ⟨_, j⟩ | ⟨_, j⟩ <;>
        simp [j, hhash.symm, hapart]
    · left
      rw [h, List.cons_append, get_cons, if_neg hhash.symm, List.cons_append, get_cons, if_pos rfl]
  refine ⟨?_, hother, fun «at» => ?_, ?_⟩
  · rw [wireData, List.cons_append, get_cons, if_pos rfl]
  · exact nullable_text hget fun s hs => multihash_of_ne (hd.2.1 s hs) _
  · have hjws' : get (wireData carrier data) (lit "jws") = data.jws ∨
        (data.jws = .scalar .null ∧ get (wireData carrier data) (lit "jws") = .undefined) := by
      rw [wireData]
      have hskip : ∀ rest, get (carrier :: unlessNull (lit "hash")
          (.scalar (textOrNull data.hash)) ++ rest) (lit "jws") = get rest (lit "jws") := by
        intro rest
        rw [List.cons_append, get_cons, if_neg hjws.symm]
        rcases unlessNull_cases (lit "hash") (.scalar (textOrNull data.hash)) with
          ⟨_, h⟩ | ⟨_, h⟩
        · rw [h, List.nil_append]
        · rw [h, List.cons_append, get_cons, if_neg hapart.symm, List.nil_append]
      rw [hskip]
      rcases unlessNull_cases (lit "jws") data.jws with ⟨hn, j⟩ | ⟨_, j⟩
      · right
        rw [j]
        exact ⟨hn, rfl⟩
      · left
        rw [j, get_cons, if_pos rfl]
    rw [jwsOf]
    rcases hjws' with h | ⟨hn, h⟩
    · rw [h]
      split
      · next e => exact absurd e hd.1
      · rfl
    · rw [h, hn]

/-- What is read of the other members of a wire attachment. -/
theorem carried_present {scalars : List (JsString × Scalar)} {name : JsString} {value : JsValue}
    (hn : (scalars.map Prod.fst ++ [name]).Nodup) :
    (∀ m ∈ scalars, Carried (present scalars ++ [(name, value)]) m) ∧
      get (present scalars ++ [(name, value)]) name = value := by
  have hnames : ((present scalars ++ [(name, value)]).map Prod.fst).Sublist
      (scalars.map Prod.fst ++ [name]) := by
    rw [List.map_append, present, List.map_map]
    exact (List.filter_sublist.map Prod.fst).append (List.Sublist.refl _)
  have hnodup := hn.sublist hnames
  refine ⟨fun m hm => ?_, get_of_mem hnodup (by simp)⟩
  by_cases hnull : m.2 = .null
  · refine Or.inr ⟨hnull, get_of_notMem fun hin => ?_⟩
    rw [List.map_append, List.mem_append, present, List.map_map] at hin
    rcases hin with hin | hin
    · obtain ⟨x, hx, hxm⟩ := List.mem_map.mp hin
      obtain ⟨hx, hne⟩ := List.mem_filter.mp hx
      have heq : x = m := List.inj_on_of_nodup_map (List.nodup_append.mp hn).1 hx hm hxm
      rw [heq, hnull] at hne
      simp at hne
    · refine (List.nodup_append.mp hn).2.2 m.1 (List.mem_map_of_mem hm) m.1 ?_ rfl
      simpa using hin
  · refine Or.inl (get_of_mem hnodup (List.mem_append_left _ (List.mem_map.mpr ⟨m, ?_, rfl⟩)))
    exact List.mem_filter.mpr ⟨hm, by simpa using hnull⟩

/-! ## An attachment put on the wire and stored again -/

/-- The object a payload is stored as. -/
def objectOf (P : Packages) (bytes : Uint8Array) : StoredObject := ⟨rawCidOfBytes P bytes, bytes⟩

theorem nodup_scalars (d : Descriptor) :
    (d.scalars.map Prod.fst ++ [lit "data"]).Nodup := by
  have hnames : d.scalars.map Prod.fst = [lit "id", lit "description", lit "filename",
      lit "media_type", lit "format", lit "lastmod_time", lit "byte_count"] := rfl
  rw [hnames]
  decide

theorem safeInteger?_count (bytes : Uint8Array) :
    (Binary64.ofInt bytes.length).safeInteger? = some (bytes.length : Int) :=
  Binary64.safeInteger?_ofInt (by have := bytes.length_lt; rw [Uint8Array.length]; omega)

/-- The wire carries an inline payload so that it is read back. -/
theorem wireInline_of_backs {kind : InlineKind} {bytes : Uint8Array} {byteCount : Option Binary64}
    (hjson : kind = .json → ∃ v, IJson 0 v ∧ bytes.bytes = canonicalBytes P v)
    (hcount : byteCount = some (Binary64.ofInt bytes.length)) :
    ∃ value, wireInline P B kind (rawCidOfBytes P bytes) byteCount (some bytes) =
        .ok (kind.text, value) ∧
      ∀ members «at», get members kind.text = value →
        inlineBytes P B kind members «at» = .ok bytes := by
  have hchecks : ∀ {α : Type} (rest : Checks α) (e e' : DocumentError),
      (do refuse (rawCidOfBytes P bytes ≠ rawCidOfBytes P bytes) e
          refuse (byteCount.bind Binary64.safeInteger? ≠ some (bytes.length : Int)) e'
          rest) = rest := by
    intro α rest e e'
    rw [refuse_of_not (fun h => h rfl), ok_bind, refuse_of_not, ok_bind]
    rw [ne_eq, not_not, hcount, Option.bind_some, safeInteger?_count]
  rw [wireInline.eq_def]
  simp only [hchecks]
  cases kind with
  | base64 =>
      refine ⟨_, rfl, fun members «at» hget => ?_⟩
      rw [InlineKind.text] at hget
      rw [inlineBytes, hget, JsValue.str, decodeBase64, if_neg (B.unpadded bytes),
        B.decodeNoPad_encodeNoPad]
      rfl
  | json =>
      obtain ⟨v, hv, hbytes⟩ := hjson rfl
      refine ⟨ofJson v.canonical, ?_, fun members «at» hget => ?_⟩
      · simp only [canonicalJsonPayload_of_canonical hv hbytes, ok_bind]
        rfl
      · rw [InlineKind.text] at hget
        rw [inlineBytes, hget]
        refine canonicalized_of_canonicalize ?_ _
        rw [EventStore.canonicalize_ofJson hv.canonical, EventStore.canonicalBytes_canonical, hbytes]

/-- What was stored goes on the wire, and is stored from it as it was. -/
theorem store_of_backed {stored : StoredAttachment} {payload : Option Uint8Array}
    (h : Backed P stored payload) :
    ∃ wire, wireAttachment P B stored payload = .ok wire ∧
      ∀ «at», storeAttachment P B wire «at» = .ok (stored, payload.map (objectOf P)) := by
  obtain ⟨descriptor, data⟩ := stored
  -- the carrier is put on the wire, and what it carries is read back
  obtain ⟨carrier, hmem, hcarrier, hstore⟩ : ∃ carrier, carrier.1 ∈ CARRIERS ∧
      wireAttachment P B ⟨descriptor, data⟩ payload =
        .ok (.object (present descriptor.scalars ++ [(lit "data",
          .object (wireData carrier data))])) ∧
      ∀ «at», storeData P B (.object (wireData carrier data)) «at» =
        .ok (data, payload.map (objectOf P)) := by
    cases data with
    | links urls hash jws =>
        obtain rfl : payload = none := h.backs
        have hmem : lit "links" ∈ CARRIERS := by decide
        obtain ⟨hcarry, hown, hhash, hjws⟩ :=
          @read_wireData (lit "links", .array (urls.map .str)) hmem _ h.data
        refine ⟨_, hmem, rfl, fun «at» => ?_⟩
        rw [storeData]
        simp only [hown _ (by decide : lit "base64" ∈ CARRIERS),
          hown _ (by decide : lit "json" ∈ CARRIERS), hown _ hmem, hhash, hjws, hcarry]
        simp only [(by decide : lit "base64" ≠ lit "links"), (by decide : lit "json" ≠ lit "links"),
          decide_false, decide_true, ok_bind, StoredAttachmentData.hash]
        rw [links_of_ne h.data.2.2.1 h.data.2.2.2]
        rfl
    | inline kind root hash jws =>
        obtain ⟨bytes, rfl, rfl, hjson⟩ := h.backs
        obtain ⟨value, hwire, hbytes⟩ := @wireInline_of_backs P B kind bytes
          descriptor.byte_count hjson (h.count bytes rfl)
        have hmem : kind.text ∈ CARRIERS := by cases kind <;> decide
        obtain ⟨hcarry, hown, hhash, hjws⟩ := @read_wireData (kind.text, value) hmem _ h.data
        refine ⟨(kind.text, value), hmem, ?_, fun «at» => ?_⟩
        · rw [wireAttachment]
          simp only [wireCarrier, hwire, ok_bind]
          rfl
        · rw [storeData]
          simp only [hown _ (by decide : lit "base64" ∈ CARRIERS),
            hown _ (by decide : lit "json" ∈ CARRIERS), hown _ (by decide : lit "links" ∈ CARRIERS),
            hhash, hjws, ok_bind]
          cases kind with
          | base64 => simp only [hbytes _ _ hcarry, ok_bind]; rfl
          | json => simp only [hbytes _ _ hcarry, ok_bind]; rfl
  refine ⟨_, hcarrier, fun «at» => ?_⟩
  obtain ⟨hscalars, hdata⟩ := @carried_present descriptor.scalars (lit "data")
    (.object (wireData carrier data)) (nodup_scalars descriptor)
  rw [storeAttachment]
  simp only [Descriptor.read_of_carried h.valid hscalars, hdata, hstore, ok_bind]
  cases payload with
  | none => rfl
  | some bytes =>
      have hcount : descriptor.byte_count = some (Binary64.ofInt bytes.length) := h.count bytes rfl
      simp only [Option.map_some, objectOf]
      rw [refuse_of_not, ok_bind]
      · rw [← hcount]
        rfl
      · rintro ⟨count, hc, hne⟩
        rw [hcount] at hc
        cases hc
        exact hne (safeInteger?_count bytes)

/-! ## What storing and the wire see to -/

theorem jwsOf_ne_undefined (members : List (JsString × JsValue)) : jwsOf members ≠ .undefined := by
  rw [jwsOf]
  split
  · exact fun h => by cases h
  · next hne => exact hne

theorem ownKeys_jwsOf {members : List (JsString × JsValue)} (h : ∀ m ∈ members, m.2.OwnKeys) :
    (jwsOf members).OwnKeys := by
  rw [jwsOf]
  split
  · exact .scalar _
  · exact ownKeys_get h

theorem ne_of_hash {members : List (JsString × JsValue)} {«at» : JsString} {hash : Option JsString}
    (h : member members «at» (lit "hash") multihash = .ok hash) : ∀ s ∈ hash, s ≠ [] :=
  fun s hs => (ne_of_multihash (nullable_eq_ok h s hs)).1

/-- What storing the data of an attachment leaves, with the object its content became. -/
structure DataStored (P : Packages) (data : StoredAttachmentData) (object : Option StoredObject) :
    Prop where
  valid : data.Valid
  backs : Backs P (object.map StoredObject.bytes) data
  object : object = (object.map StoredObject.bytes).map (objectOf P)
  jws : data.jws.OwnKeys

theorem inline_stored {members : List (JsString × JsValue)} (hkeys : ∀ m ∈ members, m.2.OwnKeys)
    {kind : InlineKind} {hash : Option JsString} {bytes : Uint8Array} {«at» : JsString}
    (hhash : member members «at» (lit "hash") multihash = .ok hash)
    (hbytes : inlineBytes P B kind members «at» = .ok bytes) :
    DataStored P (.inline kind (rawCidOfBytes P bytes) hash (jwsOf members))
      (some ⟨rawCidOfBytes P bytes, bytes⟩) := by
  refine ⟨⟨jwsOf_ne_undefined _, ne_of_hash hhash, EventStore.isRawCid_rawCidFromDigest _⟩,
    ⟨bytes, rfl, rfl, ?_⟩, rfl, ownKeys_jwsOf hkeys⟩
  rintro rfl
  obtain ⟨v, _, hv, hb⟩ := EventStore.ijson_of_canonicalize (ownKeys_get hkeys)
    (canonicalized_eq_ok hbytes)
  exact ⟨v, hv, hb⟩

theorem dataStored_of_store {value : JsValue} (hkeys : value.OwnKeys) {«at» : JsString}
    {data : StoredAttachmentData} {object : Option StoredObject}
    (h : storeData P B value «at» = .ok (data, object)) : DataStored P data object := by
  rw [storeData.eq_def] at h
  split at h
  · next members =>
    cases hkeys with
    | object _ hkeys =>
    simp only at h
    split at h
    · obtain ⟨hash, hhash, h⟩ := bind_eq_ok.mp h
      obtain ⟨bytes, hbytes, h⟩ := bind_eq_ok.mp h
      cases h
      exact inline_stored hkeys hhash hbytes
    · obtain ⟨hash, hhash, h⟩ := bind_eq_ok.mp h
      obtain ⟨bytes, hbytes, h⟩ := bind_eq_ok.mp h
      cases h
      exact inline_stored hkeys hhash hbytes
    · obtain ⟨hash, hhash, h⟩ := bind_eq_ok.mp h
      split at h
      · cases h
      · next hash' =>
        obtain ⟨urls, hurls, h⟩ := bind_eq_ok.mp h
        cases h
        obtain ⟨hne, hall, _⟩ := ne_of_links hurls
        exact ⟨⟨jwsOf_ne_undefined _, ne_of_hash hhash, hne, hall⟩, rfl, rfl, ownKeys_jwsOf hkeys⟩
    · cases h
  · cases h

/-- What storing an attachment leaves. -/
theorem backed_of_store {value : JsValue} (hkeys : value.OwnKeys) {«at» : JsString}
    {stored : StoredAttachment} {object : Option StoredObject}
    (h : storeAttachment P B value «at» = .ok (stored, object)) :
    Backed P stored (object.map StoredObject.bytes) ∧
      object = (object.map StoredObject.bytes).map (objectOf P) ∧ stored.data.jws.OwnKeys := by
  rw [storeAttachment.eq_def] at h
  split at h
  · next members =>
    cases hkeys with
    | object _ hkeys =>
    obtain ⟨descriptor, hdescriptor, h⟩ := bind_eq_ok.mp h
    obtain ⟨⟨data, payload⟩, hdata, h⟩ := bind_eq_ok.mp h
    have hvalid := Descriptor.valid_of_read hdescriptor
    obtain ⟨hd, hbacks, hobject, hjws⟩ := dataStored_of_store (ownKeys_get hkeys) hdata
    cases payload with
    | none =>
        cases h
        exact ⟨⟨hvalid, hd, hbacks, fun _ hb => (nomatch hb)⟩, hobject, hjws⟩
    | some payload =>
        obtain ⟨_, h⟩ := refuse_bind_eq_ok.mp h
        cases h
        refine ⟨⟨⟨hvalid.id, hvalid.lastmod_time, ?_⟩, hd, hbacks, ?_⟩, hobject, hjws⟩
        · rintro x ⟨⟩
          have hcount := safeInteger?_count payload.bytes
          rw [hcount]
          simp
        · rintro bytes ⟨⟩
          rfl
  · cases h

/-- A payload the wire took for a stored attachment is as good as the one it was stored with. -/
theorem backed_of_wire {stored : StoredAttachment} {payload payload' : Option Uint8Array}
    (h : Backed P stored payload) (hlinks : stored.data.root? = none → payload' = none)
    {wire : JsValue} (hwire : wireAttachment P B stored payload' = .ok wire) :
    Backed P stored payload' := by
  obtain ⟨descriptor, data⟩ := stored
  obtain ⟨carrier, hcarrier, _⟩ := bind_eq_ok.mp hwire
  cases data with
  | links urls hash jws =>
      obtain rfl := hlinks rfl
      exact ⟨h.valid, h.data, rfl, fun _ hb => (nomatch hb)⟩
  | inline kind root hash jws =>
      obtain ⟨bytes, rfl, rfl, _⟩ := h.backs
      have hcount : descriptor.byte_count = some (Binary64.ofInt bytes.length) := h.count bytes rfl
      simp only [wireCarrier, hcount] at hcarrier
      rw [wireInline.eq_def] at hcarrier
      cases payload' with
      | none => cases hcarrier
      | some bytes' =>
          obtain ⟨hroot, hcarrier⟩ := refuse_bind_eq_ok.mp hcarrier
          obtain ⟨hlength, hcarrier⟩ := refuse_bind_eq_ok.mp hcarrier
          rw [ne_eq, not_not] at hroot
          rw [ne_eq, not_not, Option.bind_some, safeInteger?_count, Option.some.injEq] at hlength
          refine ⟨h.valid, h.data, ⟨bytes', rfl, hroot, ?_⟩, ?_⟩
          · rintro rfl
            obtain ⟨value, hvalue, _⟩ := bind_eq_ok.mp hcarrier
            exact canonicalJsonPayload_eq_ok hvalue
          · rintro b ⟨⟩
            rw [← hlength]
            exact hcount

end Payloads

/-! ## The stored form as JSON -/

section Stored

def StoredAttachmentData.json (data : StoredAttachmentData) (jws : Json) : Json :=
  match data with
  | .inline kind root hash _ =>
    .object [(lit "kind", .scalar (.string kind.text)), (lit "root", .scalar (.string root)),
      (lit "hash", .scalar (textOrNull hash)), (lit "jws", jws)]
  | .links urls hash _ =>
    .object [(lit "kind", .scalar (.string (lit "links"))),
      (lit "links", .array (urls.map fun url => .scalar (.string url))),
      (lit "hash", .scalar (.string hash)), (lit "jws", jws)]

def StoredAttachment.json (stored : StoredAttachment) (jws : Json) : Json :=
  .object ((stored.scalars.map fun m => (m.1, .scalar m.2)) ++
    [(lit "data", stored.data.json jws)])

/-- A document of a body and of attachments, each with its `jws`. -/
def documentJson (body : Json) (attachments : List (StoredAttachment × Json)) : Json :=
  .object [(lit "body", body),
    (lit "attachments", .array (attachments.map fun a => a.1.json a.2))]

theorem ofJson_object (members : List (JsString × Json)) :
    ofJson (.object members) = .object (members.map fun m => (m.1, ofJson m.2)) := by
  rw [ofJson, JsValue.ofMembers_eq_map]

theorem ofJson_array (items : List Json) : ofJson (.array items) = .array (items.map ofJson) := by
  rw [ofJson, JsValue.ofItems_eq_map]

/-- A member of a value that is JSON is JSON. -/
theorem json_of_member {members : List (JsString × JsValue)} {v : Json}
    (h : .object members = ofJson v) {m : JsString × JsValue} (hm : m ∈ members) :
    ∃ w, m.2 = ofJson w := by
  cases v with
  | scalar s => cases h
  | array items => rw [ofJson_array] at h; cases h
  | object ms =>
      rw [ofJson_object] at h
      cases h
      obtain ⟨x, _, rfl⟩ := List.mem_map.mp hm
      exact ⟨x.2, rfl⟩

theorem json_of_element {elements : List JsValue} {v : Json} (h : .array elements = ofJson v)
    {x : JsValue} (hx : x ∈ elements) : ∃ w, x = ofJson w := by
  cases v with
  | scalar s => cases h
  | object ms => rw [ofJson_object] at h; cases h
  | array items =>
      rw [ofJson_array] at h
      cases h
      obtain ⟨w, _, rfl⟩ := List.mem_map.mp hx
      exact ⟨w, rfl⟩

theorem data_value {data : StoredAttachmentData} {j : Json} (h : data.jws = ofJson j) :
    data.value = ofJson (data.json j) := by
  cases data with
  | inline kind root hash jws =>
      obtain rfl : jws = ofJson j := h
      rw [StoredAttachmentData.json, ofJson_object]
      rfl
  | links urls hash jws =>
      obtain rfl : jws = ofJson j := h
      rw [StoredAttachmentData.json, ofJson_object]
      simp only [List.map_cons, List.map_nil, ofJson_array, List.map_map]
      rfl

theorem attachment_value {stored : StoredAttachment} {j : Json} (h : stored.data.jws = ofJson j) :
    stored.value = ofJson (stored.json j) := by
  rw [StoredAttachment.json, ofJson_object, StoredAttachment.value, data_value h, List.map_append,
    List.map_map]
  rfl

theorem document_value {body : Json} {attachments : List (StoredAttachment × Json)}
    (h : ∀ a ∈ attachments, a.1.data.jws = ofJson a.2) :
    StoredMessageDocument.value ⟨ofJson body, attachments.map Prod.fst⟩ =
      ofJson (documentJson body attachments) := by
  rw [documentJson, ofJson_object, StoredMessageDocument.value]
  have hvalues : (attachments.map Prod.fst).map StoredAttachment.value =
      (attachments.map fun a => a.1.json a.2).map ofJson := by
    rw [List.map_map, List.map_map]
    exact List.map_congr_left fun a ha => attachment_value (h a ha)
  simp only [List.map_cons, List.map_nil, ofJson_array, hvalues]

/-- A document whose value is JSON has a body and `jws` members that are. -/
theorem json_of_document {document : StoredMessageDocument} {v : Json}
    (h : document.value = ofJson v) :
    ∃ body attachments, document = ⟨ofJson body, attachments.map Prod.fst⟩ ∧
      (∀ a ∈ attachments, a.1.data.jws = ofJson a.2) ∧ v = documentJson body attachments := by
  obtain ⟨body, stored⟩ := document
  obtain ⟨b, hb⟩ := json_of_member h List.mem_cons_self
  obtain rfl : body = ofJson b := hb
  obtain ⟨list, hlist⟩ := json_of_member h (List.mem_cons_of_mem _ List.mem_cons_self)
  have hjws : ∀ s ∈ stored, ∃ j, s.data.jws = ofJson j := by
    intro s hs
    obtain ⟨w, hw⟩ := json_of_element hlist (List.mem_map_of_mem hs)
    obtain ⟨d, hd⟩ := json_of_member hw (m := (lit "data", s.data.value))
      (List.mem_append_right _ (List.mem_singleton_self _))
    cases hdata : s.data with
    | inline kind root hash jws =>
        rw [hdata] at hd
        exact json_of_member hd (m := (lit "jws", jws)) (by simp)
    | links urls hash jws =>
        rw [hdata] at hd
        exact json_of_member hd (m := (lit "jws", jws)) (by simp)
  obtain ⟨attachments, rfl, hall⟩ : ∃ attachments : List (StoredAttachment × Json),
      stored = attachments.map Prod.fst ∧ ∀ a ∈ attachments, a.1.data.jws = ofJson a.2 := by
    clear h hlist
    induction stored with
    | nil => exact ⟨[], rfl, fun _ ha => nomatch ha⟩
    | cons s stored ih =>
        obtain ⟨⟨j, hj⟩, hrest⟩ := List.forall_mem_cons.mp hjws
        obtain ⟨attachments, rfl, hall⟩ := ih hrest
        exact ⟨(s, j) :: attachments, rfl, List.forall_mem_cons.mpr ⟨hj, hall⟩⟩
  refine ⟨b, attachments, rfl, hall, ?_⟩
  rw [document_value hall] at h
  exact (JsValue.ofJson_injective _ h).symm

/-! ## Its canonical form -/

def Descriptor.canonical (d : Descriptor) : Descriptor :=
  { d with lastmod_time := d.lastmod_time.map Binary64.unsigned
           byte_count := d.byte_count.map Binary64.unsigned }

def StoredAttachmentData.withJws (data : StoredAttachmentData) (jws : Json) :
    StoredAttachmentData :=
  match data with
  | .inline kind root hash _ => .inline kind root hash (ofJson jws)
  | .links urls hash _ => .links urls hash (ofJson jws)

def StoredAttachment.canonical (stored : StoredAttachment) (jws : Json) : StoredAttachment :=
  ⟨stored.toDescriptor.canonical, stored.data.withJws jws.canonical⟩

theorem canonicalScalar_text (o : Option JsString) :
    Json.canonicalScalar (textOrNull o) = textOrNull o := by cases o <;> rfl

theorem canonicalScalar_number (o : Option Binary64) :
    Json.canonicalScalar (numberOrNull o) = numberOrNull (o.map Binary64.unsigned) := by
  cases o <;> rfl

theorem scalars_canonical (d : Descriptor) :
    d.canonical.scalars = d.scalars.map fun m => (m.1, Json.canonicalScalar m.2) := by
  simp only [Descriptor.scalars, List.map_cons, List.map_nil, canonicalScalar_text,
    canonicalScalar_number]
  rfl

theorem Descriptor.Valid.canonical {d : Descriptor} (h : d.Valid) : d.canonical.Valid where
  id := h.id
  lastmod_time := by
    rintro x hx
    obtain ⟨y, hy, rfl⟩ := Option.map_eq_some_iff.mp hx
    rw [Binary64.safeInteger?_unsigned]
    exact h.lastmod_time y hy
  byte_count := by
    rintro x hx
    obtain ⟨y, hy, rfl⟩ := Option.map_eq_some_iff.mp hx
    rw [Binary64.safeInteger?_unsigned]
    exact h.byte_count y hy

/-- A canonical object has the members of the object, in the order of their names. -/
theorem canonical_object {members : List (JsString × Json)} {names sorted : List JsString}
    (hnames : members.map Prod.fst = names) (hn : names.Nodup) (hp : names.Perm sorted)
    (hs : Cmp.sortBy Json.compareUnits sorted = sorted) :
    ∃ read, ofJson (Json.object members).canonical = .object read ∧ exactly read sorted = true ∧
      ∀ m ∈ members, get read m.1 = ofJson m.2.canonical := by
  have hperm := @Cmp.sortBy_perm _ Json.compareNames (members.map Json.canonicalMember)
  have hordered := hperm.map Prod.fst
  rw [List.map_map] at hordered
  refine ⟨_, by rw [Json.canonical, Json.canonicalMembers_eq_map, ofJson_object], ?_, ?_⟩
  · rw [exactly, List.map_map, beq_iff_eq]
    exact (Cmp.sortBy_eq_of_perm (hordered.trans (hnames ▸ hp))).trans hs
  · intro m hm
    refine get_of_mem ?_ (List.mem_map.mpr ⟨_, hperm.mem_iff.mpr (List.mem_map_of_mem hm), rfl⟩)
    rw [List.map_map]
    exact hordered.nodup_iff.mpr (hnames.symm ▸ hn)

/-! ## Reading the canonical form -/

theorem jwsOf_of_get {members : List (JsString × JsValue)} {j : Json}
    (h : get members (lit "jws") = ofJson j) : jwsOf members = ofJson j := by
  rw [jwsOf, h]
  split
  · next e =>
    have hj := EventStore.isUndefined_ofJson j
    rw [e] at hj
    cases hj
  · rfl

theorem read_data {data : StoredAttachmentData} (h : data.Valid) (j : Json) («at» : JsString) :
    readStoredData (ofJson (data.json j).canonical) «at» = .ok (data.withJws j.canonical) := by
  cases data with
  | links urls hash jws =>
      obtain ⟨read, hread, hexact, hget⟩ := @canonical_object
        [(lit "kind", .scalar (.string (lit "links"))),
          (lit "links", .array (urls.map fun url => .scalar (.string url))),
          (lit "hash", .scalar (.string hash)), (lit "jws", j)]
        [lit "kind", lit "links", lit "hash", lit "jws"] LINKS_DATA_MEMBERS rfl
        (by decide) (by decide) (by decide)
      simp only [List.forall_mem_cons] at hget
      obtain ⟨hkind, hlinks, hhash, hjws, _⟩ := hget
      have hlinked : (get read (lit "kind")).string? = some (lit "links") := by rw [hkind]; rfl
      have hlist : ofJson (Json.array (urls.map fun url => .scalar (.string url))).canonical =
          .array (urls.map .str) := by
        rw [Json.canonical, Json.canonicalItems_eq_map, List.map_map, ofJson_array, List.map_map]
        rfl
      rw [StoredAttachmentData.json, hread, readStoredData, if_pos hlinked, hexact,
        refuse_of_not (by decide), ok_bind, hlinks, hlist, links_of_ne h.2.2.1 h.2.2.2, ok_bind,
        hhash]
      have hmulti := multihash_of_ne (h.2.1 hash rfl) («at» ++ lit ".hash")
      rw [JsValue.str] at hmulti
      simp only [Json.canonical, Json.canonicalScalar, ofJson, hmulti, ok_bind]
      rw [jwsOf_of_get hjws]
      rfl
  | inline kind root hash jws =>
      obtain ⟨read, hread, hexact, hget⟩ := @canonical_object
        [(lit "kind", .scalar (.string kind.text)), (lit "root", .scalar (.string root)),
          (lit "hash", .scalar (textOrNull hash)), (lit "jws", j)]
        [lit "kind", lit "root", lit "hash", lit "jws"] INLINE_DATA_MEMBERS rfl
        (by decide) (by decide) (by decide)
      simp only [List.forall_mem_cons] at hget
      obtain ⟨hkind, hroot, hhash, hjws, _⟩ := hget
      have hinline : readStoredInline kind read «at» =
          .ok (.inline kind root hash (ofJson j.canonical)) := by
        rw [readStoredInline, hexact, refuse_of_not (by decide), ok_bind, hroot]
        simp only [Json.canonical, Json.canonicalScalar, ofJson]
        rw [refuse_of_not (by rw [h.2.2]; decide), ok_bind, member, nullable_text (o := hash)]
        · rw [ok_bind, jwsOf_of_get hjws, pure_eq_ok]
        · left
          rw [hhash, Json.canonical, canonicalScalar_text, ofJson]
        · exact fun s hs => multihash_of_ne (h.2.1 s hs) _
      rw [StoredAttachmentData.json, hread, readStoredData, hkind]
      cases kind with
      | base64 => exact hinline
      | json => exact hinline

theorem read_attachment {P : Packages} {stored : StoredAttachment} {payload : Option Uint8Array}
    (h : Backed P stored payload) (j : Json) («at» : JsString) :
    readStoredAttachment (ofJson (stored.json j).canonical) «at» = .ok (stored.canonical j) := by
  obtain ⟨descriptor, data⟩ := stored
  obtain ⟨read, hread, hexact, hget⟩ := @canonical_object
    ((descriptor.scalars.map fun m => (m.1, .scalar m.2)) ++ [(lit "data", data.json j)])
    [lit "id", lit "description", lit "filename", lit "media_type", lit "format",
      lit "lastmod_time", lit "byte_count", lit "data"] DESCRIPTOR_MEMBERS rfl
    (by decide) (by decide) (by decide)
  have hdata := hget _ (List.mem_append_right _ (List.mem_singleton_self _))
  have hcarried : ∀ m ∈ descriptor.canonical.scalars, Carried read m := by
    intro m hm
    rw [scalars_canonical] at hm
    obtain ⟨x, hx, rfl⟩ := List.mem_map.mp hm
    exact Or.inl (hget (x.1, .scalar x.2) (List.mem_append_left _ (List.mem_map.mpr ⟨x, hx, rfl⟩)))
  rw [StoredAttachment.json, hread, readStoredAttachment, hexact, refuse_of_not (by decide),
    ok_bind, Descriptor.read_of_carried h.valid.canonical hcarried, ok_bind, hdata,
    read_data h.data, ok_bind]
  cases data with
  | links urls hash jws => rfl
  | inline kind root hash jws =>
      obtain ⟨bytes, rfl, _⟩ := h.backs
      have hcount : descriptor.canonical.byte_count ≠ none := by
        have hcount : descriptor.byte_count = some (Binary64.ofInt bytes.length) := h.count bytes rfl
        simp [Descriptor.canonical, hcount]
      simp only [StoredAttachmentData.withJws]
      rw [refuse_of_not hcount, ok_bind]
      rfl

/-- The canonical bytes of a stored document read back as the document in canonical form. -/
theorem read_document {P : Packages} {members : List (JsString × Json)}
    {attachments : List (StoredAttachment × Json)}
    (h : ∀ a ∈ attachments, ∃ payload, Backed P a.1 payload) :
    readStoredDocument (ofJson (documentJson (.object members) attachments).canonical) =
      .ok ⟨ofJson (Json.object members).canonical, attachments.map fun a => a.1.canonical a.2⟩ := by
  have hread : ∀ (list : List (StoredAttachment × Json)) (i : Nat),
      (∀ a ∈ list, ∃ payload, Backed P a.1 payload) →
      readStoredAttachments (list.map fun a => ofJson (a.1.json a.2).canonical) i =
        .ok (list.map fun a => a.1.canonical a.2) := by
    intro list
    induction list with
    | nil => exact fun _ _ => rfl
    | cons a list ih =>
        intro i hall
        obtain ⟨⟨payload, hbacked⟩, hrest⟩ := List.forall_mem_cons.mp hall
        rw [List.map_cons, readStoredAttachments, read_attachment hbacked, ok_bind,
          ih (i + 1) hrest, ok_bind]
        rfl
  obtain ⟨read, hdocument, hexact, hget⟩ := @canonical_object [(lit "body", .object members),
    (lit "attachments", .array (attachments.map fun a => a.1.json a.2))]
    [lit "body", lit "attachments"] [lit "attachments", lit "body"] rfl
    (by decide) (by decide) (by decide)
  simp only [List.forall_mem_cons] at hget
  obtain ⟨hbody, hattachments, _⟩ := hget
  have hlist : ofJson (Json.array (attachments.map fun a => a.1.json a.2)).canonical =
      .array (attachments.map fun a => ofJson (a.1.json a.2).canonical) := by
    rw [Json.canonical, Json.canonicalItems_eq_map, List.map_map, ofJson_array, List.map_map]
    rfl
  have hplain : (ofJson (Json.object members).canonical).isJsonObject = true := by
    rw [Json.canonical, ofJson_object]
    rfl
  rw [documentJson, hdocument, readStoredDocument, hexact, refuse_of_not (by decide), ok_bind,
    hbody, refuse_of_not (by rw [hplain]; decide), ok_bind, hattachments, hlist]
  simp only [hread attachments 0 h, ok_bind]
  rfl

/-! ## One canonical form -/

theorem canonical_congr {members members' : List (JsString × Json)}
    (h : members.map Json.canonicalMember = members'.map Json.canonicalMember) :
    (Json.object members).canonical = (Json.object members').canonical := by
  rw [Json.canonical, Json.canonical, Json.canonicalMembers_eq_map, Json.canonicalMembers_eq_map, h]

theorem canonical_data (data : StoredAttachmentData) (j : Json) :
    ((data.withJws j.canonical).json j.canonical).canonical = (data.json j).canonical := by
  cases data with
  | inline kind root hash jws =>
      refine canonical_congr ?_
      simp only [List.map_cons, Json.canonicalMember, Json.canonical_canonical]
  | links urls hash jws =>
      refine canonical_congr ?_
      simp only [List.map_cons, Json.canonicalMember, Json.canonical_canonical]

theorem canonical_attachment (stored : StoredAttachment) (j : Json) :
    ((stored.canonical j).json j.canonical).canonical = (stored.json j).canonical := by
  refine canonical_congr ?_
  have hscalars : (stored.canonical j).scalars =
      stored.scalars.map fun m => (m.1, Json.canonicalScalar m.2) := scalars_canonical _
  rw [hscalars]
  simp only [List.map_append, List.map_map, List.map_cons, List.map_nil]
  congr 1
  · refine List.map_congr_left fun m _ => ?_
    simp only [Function.comp, Json.canonicalMember, Json.canonical,
      Json.canonicalScalar_canonicalScalar]
  · simp only [Json.canonicalMember, StoredAttachment.canonical, canonical_data]

/-- The attachments, each with its `jws`, as they read back. -/
def readBack (attachments : List (StoredAttachment × Json)) : List (StoredAttachment × Json) :=
  attachments.map fun a => (a.1.canonical a.2, a.2.canonical)

theorem canonical_document (body : Json) (attachments : List (StoredAttachment × Json)) :
    (documentJson body.canonical (readBack attachments)).canonical =
      (documentJson body attachments).canonical := by
  refine canonical_congr ?_
  simp only [List.map_cons, List.map_nil, Json.canonicalMember, Json.canonical_canonical,
    Json.canonical, Json.canonicalItems_eq_map, List.map_map, readBack]
  have hall : attachments.map (Json.canonical ∘ (fun a => a.1.json a.2) ∘
      fun a => (a.1.canonical a.2, a.2.canonical)) =
      attachments.map (Json.canonical ∘ fun a => a.1.json a.2) :=
    List.map_congr_left fun a _ => canonical_attachment a.1 a.2
  rw [hall]

theorem unsigned_count (n : Nat) : (Binary64.ofInt n).unsigned = Binary64.ofInt n := by
  refine if_neg fun h => ?_
  have hneg : (Binary64.ofInt n).negative = false := by
    rw [Binary64.ofInt]
    split
    · rfl
    · simp
  rw [h] at hneg
  cases hneg

/-- What read back is backed by the same payload. -/
theorem Backed.canonical {P : Packages} {stored : StoredAttachment} {payload : Option Uint8Array}
    (h : Backed P stored payload) (j : Json) : Backed P (stored.canonical j) payload := by
  obtain ⟨descriptor, data⟩ := stored
  refine ⟨h.valid.canonical, ?_, ?_, fun bytes hb => ?_⟩
  · obtain ⟨_, hhash, hdata⟩ := h.data
    have hj : ofJson j.canonical ≠ .undefined := fun e => by
      have := EventStore.isUndefined_ofJson j.canonical
      rw [e] at this
      cases this
    cases data with
    | inline kind root hash jws => exact ⟨hj, hhash, hdata⟩
    | links urls hash jws => exact ⟨hj, hhash, hdata⟩
  · cases data with
    | inline kind root hash jws => exact h.backs
    | links urls hash jws => exact h.backs
  · have hcount : descriptor.byte_count = some (Binary64.ofInt bytes.length) := h.count bytes hb
    simp only [StoredAttachment.canonical, Descriptor.canonical, hcount, Option.map_some,
      unsigned_count]

theorem root?_canonical (stored : StoredAttachment) (j : Json) :
    (stored.canonical j).data.root? = stored.data.root? := by
  obtain ⟨descriptor, data⟩ := stored
  cases data <;> rfl

end Stored

/-! ## Objects -/

section Objects

variable {P : Packages} {B : Base64Url}

/-- The objects of a message are kept under their CIDs, each once. -/
theorem keys_distinctObjects (objects : List StoredObject) :
    (distinctObjects objects).keys = OMap.once (objects.map StoredObject.cid) := by
  have hfold : ∀ (m : OMap Cid Uint8Array) (m' : OMap Cid Unit), m.keys = m'.keys →
      (objects.foldl (fun payloads payload =>
        if payloads.has payload.cid then payloads
        else payloads.set payload.cid payload.bytes) m).keys =
      ((objects.map StoredObject.cid).foldl (fun m a => m.set (id a) ()) m').keys := by
    induction objects with
    | nil => exact fun _ _ h => h
    | cons o objects ih =>
        intro m m' h
        rw [List.foldl_cons, List.map_cons, List.foldl_cons]
        refine ih _ _ ?_
        rw [OMap.keys_set, id, ← h]
        split
        · next hin => rw [if_pos (OMap.has_eq_true.mp hin)]
        · next hout =>
          rw [if_neg (fun hin => hout (OMap.has_eq_true.mpr hin)), OMap.keys_set,
            if_neg fun hin => hout (OMap.has_eq_true.mpr hin)]
  exact hfold _ _ rfl

/-- What is kept under a CID is an object of that CID. -/
theorem mem_of_distinctObjects {objects : List StoredObject} {cid : Cid} {bytes : Uint8Array}
    (h : (distinctObjects objects).get? cid = some bytes) :
    ∃ o ∈ objects, o.cid = cid ∧ o.bytes = bytes := by
  have hfold : ∀ (m : OMap Cid Uint8Array), (objects.foldl (fun payloads payload =>
        if payloads.has payload.cid then payloads
        else payloads.set payload.cid payload.bytes) m).get? cid = some bytes →
      m.get? cid = some bytes ∨ ∃ o ∈ objects, o.cid = cid ∧ o.bytes = bytes := by
    clear h
    induction objects with
    | nil => exact fun _ h => Or.inl h
    | cons o objects ih =>
        intro m h
        rw [List.foldl_cons] at h
        rcases ih _ h with h | ⟨o', ho', heq⟩
        · split at h
          · exact Or.inl h
          · rw [OMap.get?_set] at h
            split at h
            · next heq => exact Or.inr ⟨o, List.mem_cons_self, heq.symm, Option.some.inj h⟩
            · exact Or.inl h
        · exact Or.inr ⟨o', List.mem_cons_of_mem _ ho', heq⟩
  rcases hfold _ h with h | h
  · cases h
  · exact h

theorem cid_of_backed {stored : StoredAttachment} {payload : Option Uint8Array}
    (h : Backed P stored payload) :
    (payload.map (objectOf P)).map StoredObject.cid = stored.data.root? := by
  obtain ⟨descriptor, data⟩ := stored
  cases data with
  | links urls hash jws =>
      obtain rfl : payload = none := h.backs
      rfl
  | inline kind root hash jws =>
      obtain ⟨bytes, rfl, rfl, _⟩ := h.backs
      rfl

/-! ## Lists of attachments -/

/-- An attachment stored, with the object its content became. -/
def Kept (P : Packages) (kept : StoredAttachment × Option StoredObject) : Prop :=
  (∃ payload, Backed P kept.1 payload ∧ kept.2 = payload.map (objectOf P)) ∧
    kept.1.data.jws.OwnKeys

theorem kept_of_store {list : List JsValue} (hkeys : ∀ x ∈ list, x.OwnKeys) {i : Nat}
    {stored : List (StoredAttachment × Option StoredObject)}
    (h : storeAttachments P B list i = .ok stored) : ∀ kept ∈ stored, Kept P kept := by
  induction list generalizing i stored with
  | nil =>
      cases h
      exact fun _ hk => nomatch hk
  | cons x list ih =>
      obtain ⟨hx, hrest⟩ := List.forall_mem_cons.mp hkeys
      obtain ⟨⟨s, o⟩, hs, h⟩ := bind_eq_ok.mp h
      obtain ⟨others, hothers, h⟩ := bind_eq_ok.mp h
      cases h
      obtain ⟨hbacked, hobject, hjws⟩ := backed_of_store hx hs
      exact List.forall_mem_cons.mpr ⟨⟨⟨_, hbacked, hobject⟩, hjws⟩, ih hrest hothers⟩

/-- The CIDs of the objects are the roots that the attachments name. -/
theorem cids_of_kept {stored : List (StoredAttachment × Option StoredObject)}
    (h : ∀ kept ∈ stored, Kept P kept) :
    (stored.filterMap Prod.snd).map StoredObject.cid =
      (stored.map Prod.fst).filterMap fun s => s.data.root? := by
  rw [List.map_filterMap, List.filterMap_map]
  refine List.filterMap_congr fun kept hk => ?_
  obtain ⟨⟨payload, hbacked, hobject⟩, _⟩ := h kept hk
  rw [hobject]
  exact cid_of_backed hbacked

theorem root?_payload {stored : StoredAttachment} (payloadOf : Cid → Option Uint8Array) :
    stored.data.root? = none → stored.data.root?.bind payloadOf = none := by
  intro h
  rw [h]
  rfl

/-- Wire forms are stored as the attachments they were made of. -/
theorem store_of_wires {attachments : List StoredAttachment}
    (hall : ∀ s ∈ attachments, ∃ payload, Backed P s payload)
    {payloadOf : Cid → Option Uint8Array} {wires : List JsValue}
    (h : wireAttachments P B payloadOf attachments = .ok wires) (i : Nat) :
    ∃ stored, storeAttachments P B wires i = .ok stored ∧ stored.map Prod.fst = attachments ∧
      (stored.filterMap Prod.snd).map StoredObject.cid =
        attachments.filterMap fun s => s.data.root? := by
  induction attachments generalizing wires i with
  | nil =>
      cases h
      exact ⟨[], rfl, rfl, rfl⟩
  | cons s attachments ih =>
      obtain ⟨⟨payload, hbacked⟩, hrest⟩ := List.forall_mem_cons.mp hall
      obtain ⟨wire, hwire, h⟩ := bind_eq_ok.mp h
      obtain ⟨others, hothers, h⟩ := bind_eq_ok.mp h
      cases h
      have hbacked' := backed_of_wire hbacked (root?_payload payloadOf) hwire
      obtain ⟨wire', hwire', hstore⟩ := store_of_backed (B := B) hbacked'
      obtain rfl : wire = wire' := Except.ok.inj (hwire.symm.trans hwire')
      obtain ⟨stored, hstored, hmap, hcids⟩ := ih hrest hothers (i + 1)
      refine ⟨(s, (s.data.root?.bind payloadOf).map (objectOf P)) :: stored, ?_,
        congrArg (s :: ·) hmap, ?_⟩
      · rw [storeAttachments, hstore, ok_bind, hstored, ok_bind]
        rfl
      · have hcid := cid_of_backed hbacked'
        rw [List.filterMap_cons, List.filterMap_cons]
        generalize s.data.root?.bind payloadOf = payload' at hcid ⊢
        rw [← hcid]
        cases payload' with
        | none => exact hcids
        | some bytes => exact congrArg (rawCidOfBytes P bytes :: ·) hcids

theorem wires_of_backed {attachments : List StoredAttachment} {payloadOf : Cid → Option Uint8Array}
    (h : ∀ s ∈ attachments, Backed P s (s.data.root?.bind payloadOf)) :
    ∃ wires, wireAttachments P B payloadOf attachments = .ok wires := by
  induction attachments with
  | nil => exact ⟨[], rfl⟩
  | cons s attachments ih =>
      obtain ⟨hs, hrest⟩ := List.forall_mem_cons.mp h
      obtain ⟨wire, hwire, _⟩ := store_of_backed (B := B) hs
      obtain ⟨wires, hwires⟩ := ih hrest
      refine ⟨wire :: wires, ?_⟩
      rw [wireAttachments, hwire, ok_bind, hwires, ok_bind]
      rfl

/-! ## Messages -/

theorem ownKeys_value {stored : StoredAttachment} (h : stored.data.jws.OwnKeys) :
    stored.value.OwnKeys := by
  have nodup_inline : [lit "kind", lit "root", lit "hash", lit "jws"].Nodup := by decide
  have nodup_links : [lit "kind", lit "links", lit "hash", lit "jws"].Nodup := by decide
  have hdata : stored.data.value.OwnKeys := by
    cases hd : stored.data with
    | inline kind root hash jws =>
        rw [hd] at h
        refine .object nodup_inline ?_
        simp only [List.forall_mem_cons]
        exact ⟨.scalar _, .scalar _, .scalar _, h, fun _ hm => nomatch hm⟩
    | links urls hash jws =>
        rw [hd] at h
        refine .object nodup_links ?_
        simp only [List.forall_mem_cons]
        refine ⟨.scalar _, .array fun v hv => ?_, .scalar _, h, fun _ hm => nomatch hm⟩
        obtain ⟨url, _, rfl⟩ := List.mem_map.mp hv
        exact .scalar _
  refine .object ?_ fun m hm => ?_
  · rw [List.map_append, List.map_map]
    exact nodup_scalars stored.toDescriptor
  · rcases List.mem_append.mp hm with hm | hm
    · obtain ⟨x, _, rfl⟩ := List.mem_map.mp hm
      exact .scalar _
    · obtain rfl := List.mem_singleton.mp hm
      exact hdata

/-- The objects the contents of the attachments become, each as often as it is carried. -/
def objectsOf (P : Packages) (B : Base64Url) (attachments : JsValue) : List StoredObject :=
  match attachmentList attachments >>= fun list => storeAttachments P B list 0 with
  | .ok stored => stored.filterMap Prod.snd
  | .error _ => []

/-- The CIDs that attachments name, each once. -/
def rootsOf (pairs : List (StoredAttachment × Json)) : List Cid :=
  OMap.once ((pairs.map Prod.fst).filterMap fun s => s.data.root?)

/-- What a message stored is made of. -/
structure Stored (P : Packages) (B : Base64Url) (attachments : JsValue) (message : StoredMessage)
    (members : List (JsString × Json)) (pairs : List (StoredAttachment × Json)) : Prop where
  document : message.document = ⟨ofJson (.object members), pairs.map Prod.fst⟩
  jws : ∀ a ∈ pairs, a.1.data.jws = ofJson a.2
  ijson : IJson 0 (documentJson (.object members) pairs)
  bytes : message.bytes.bytes = canonicalBytes P (documentJson (.object members) pairs)
  bodyCid : message.bodyCid = rawCidOfBytes P message.bytes
  attachmentCids : message.attachmentCids = rootsOf pairs
  payloadOf : message.payloadOf = (distinctObjects (objectsOf P B attachments)).get?
  backed : ∀ a ∈ pairs, ∃ payload, Backed P a.1 payload ∧
    ∀ bytes ∈ payload, objectOf P bytes ∈ objectsOf P B attachments

theorem stored_of_store {body attachments : JsValue} (hbody : body.OwnKeys)
    (hattachments : attachments.OwnKeys) {message : StoredMessage}
    (h : storeMessage P B body attachments = .ok message) :
    ∃ members pairs, Stored P B attachments message members pairs := by
  obtain ⟨hobject, h⟩ := refuse_bind_eq_ok.mp h
  obtain ⟨list, hlist, h⟩ := bind_eq_ok.mp h
  obtain ⟨stored, hstored, h⟩ := bind_eq_ok.mp h
  obtain ⟨bytes, hbytes, h⟩ := bind_eq_ok.mp h
  cases h
  have hkeys : ∀ x ∈ list, x.OwnKeys := by
    rw [attachmentList.eq_def] at hlist
    split at hlist
    · cases hlist
      exact fun _ hx => nomatch hx
    · cases hlist
      cases hattachments with
      | array hall => exact hall
    · cases hlist
  have hkept := kept_of_store hkeys hstored
  have hobjects : objectsOf P B attachments = stored.filterMap Prod.snd := by
    rw [objectsOf, hlist, ok_bind, hstored]
  have hown : (StoredMessageDocument.value ⟨body, stored.map Prod.fst⟩).OwnKeys := by
    have hnames : [lit "body", lit "attachments"].Nodup := by decide
    refine .object hnames (List.forall_mem_cons.mpr ⟨hbody, List.forall_mem_cons.mpr
      ⟨.array fun x hx => ?_, fun _ hm => nomatch hm⟩⟩)
    obtain ⟨s, hs, rfl⟩ := List.mem_map.mp hx
    obtain ⟨kept, hk, rfl⟩ := List.mem_map.mp hs
    exact ownKeys_value (hkept kept hk).2
  obtain ⟨v, hv, hijson, hcanonical⟩ :=
    EventStore.ijson_of_canonicalize hown (canonicalized_eq_ok hbytes)
  obtain ⟨b, pairs, hdocument, hjws, rfl⟩ := json_of_document hv
  obtain ⟨rfl, hpairs⟩ := StoredMessageDocument.mk.inj hdocument
  obtain ⟨members, rfl⟩ : ∃ members, b = .object members := by
    cases b with
    | scalar s => exact absurd rfl hobject
    | array items => exact absurd (by rw [ofJson_array]; rfl) hobject
    | object members => exact ⟨members, rfl⟩
  refine ⟨members, pairs, ⟨by rw [hpairs], hjws, hijson, hcanonical, rfl, ?_, ?_, ?_⟩⟩
  · rw [keys_distinctObjects, cids_of_kept hkept, hpairs, rootsOf]
  · funext cid
    rw [hobjects, ← OMap.find?_entries, StoredMessage.payloadOf, List.find?_map, Option.map_map]
    rfl
  · intro a ha
    have hin : a.1 ∈ stored.map Prod.fst := hpairs ▸ List.mem_map_of_mem ha
    obtain ⟨⟨s, o⟩, hk, hka⟩ := List.mem_map.mp hin
    obtain ⟨⟨payload, hbacked, rfl⟩, _⟩ := hkept _ hk
    subst hka
    refine ⟨payload, hbacked, fun bytes hb => ?_⟩
    rw [hobjects, List.mem_filterMap]
    exact ⟨_, hk, by rw [hb]; rfl⟩

/-- A document put on the wire and stored again keeps its CID and those of its payloads. -/
theorem store_again {members : List (JsString × Json)} {pairs : List (StoredAttachment × Json)}
    (hbacked : ∀ a ∈ pairs, ∃ payload, Backed P a.1 payload)
    (hjws : ∀ a ∈ pairs, a.1.data.jws = ofJson a.2)
    (hijson : IJson 0 (documentJson (.object members) pairs)) {bytes : Uint8Array}
    (hbytes : bytes.bytes = canonicalBytes P (documentJson (.object members) pairs))
    {payloadOf : Cid → Option Uint8Array} {wires : List JsValue}
    (h : wireAttachments P B payloadOf (pairs.map Prod.fst) = .ok wires) :
    ∃ again, storeMessage P B (ofJson (.object members)) (.array wires) = .ok again ∧
      again.bodyCid = rawCidOfBytes P bytes ∧ again.attachmentCids = rootsOf pairs := by
  have hall : ∀ s ∈ pairs.map Prod.fst, ∃ payload, Backed P s payload := by
    intro s hs
    obtain ⟨a, ha, rfl⟩ := List.mem_map.mp hs
    exact hbacked a ha
  obtain ⟨stored, hstored, hmap, hcids⟩ := store_of_wires hall h 0
  have hcanonical : canonicalDocument P ⟨ofJson (.object members), stored.map Prod.fst⟩ =
      .ok bytes := by
    refine canonicalized_of_canonicalize ?_ _
    rw [hmap, document_value hjws, EventStore.canonicalize_ofJson hijson, hbytes]
  have hobject : ¬(ofJson (.object members)).isJsonObject = false := by
    rw [ofJson_object]
    exact Bool.noConfusion
  rw [storeMessage, refuse_of_not hobject, ok_bind, attachmentList, pure_eq_ok, ok_bind, hstored,
    ok_bind]
  simp only [hcanonical, ok_bind]
  refine ⟨_, rfl, rfl, ?_⟩
  rw [keys_distinctObjects, hcids, rootsOf]

/-- The payloads of a message put its document on the wire, where no two are of one CID. -/
theorem wires_of_stored {attachments : JsValue} {message : StoredMessage}
    {members : List (JsString × Json)} {pairs : List (StoredAttachment × Json)}
    (h : Stored P B attachments message members pairs)
    (hone : ∀ o ∈ objectsOf P B attachments, ∀ o' ∈ objectsOf P B attachments,
      o.cid = o'.cid → o.bytes = o'.bytes) :
    ∀ a ∈ pairs, Backed P a.1 (a.1.data.root?.bind message.payloadOf) := by
  intro a ha
  obtain ⟨payload, hbacked, hin⟩ := h.backed a ha
  have hcid := cid_of_backed hbacked
  cases payload with
  | none =>
      rw [← hcid]
      exact hbacked
  | some bytes =>
      rw [← hcid, h.payloadOf]
      have hmem := hin bytes rfl
      have hkey : (objectOf P bytes).cid ∈ (distinctObjects (objectsOf P B attachments)).keys := by
        rw [keys_distinctObjects, OMap.mem_once]
        exact List.mem_map_of_mem hmem
      obtain ⟨bytes', hget⟩ := OMap.mem_keys.mp hkey
      obtain ⟨o, ho, hcid', rfl⟩ := mem_of_distinctObjects hget
      have heq : o.bytes = bytes := hone o ho _ hmem hcid'
      simp only [Option.map_some, Option.bind_some, hget, heq]
      exact hbacked

/-- Documents of one value, the order of members and the signs of zeros aside. -/
def StoredMessageDocument.Same (document document' : StoredMessageDocument) : Prop :=
  ∃ v w, document.value = ofJson v ∧ document'.value = ofJson w ∧ Json.Same v w

/-- The wire forms of a document's attachments, whatever the payloads they are rebuilt
from, are stored under the CIDs of the message. -/
def Restores (P : Packages) (B : Base64Url) (message : StoredMessage)
    (document : StoredMessageDocument) : Prop :=
  ∀ payloadOf wires, wireAttachments P B payloadOf document.attachments = .ok wires →
    ∃ again, storeMessage P B document.body (.array wires) = .ok again ∧
      again.bodyCid = message.bodyCid ∧ again.attachmentCids = message.attachmentCids

/-- What `storeMessage` accepted is read back from its bytes as the same document, and
its wire forms are stored under the same CIDs. The message's own payloads do rebuild the
wire forms, as long as no two of its contents that differ have one CID. -/
theorem stored_documents_round_trip {body attachments : JsValue} (hbody : body.OwnKeys)
    (hattachments : attachments.OwnKeys) {message : StoredMessage}
    (h : storeMessage P B body attachments = .ok message) :
    ∃ parsed document, parseStrict P message.bytes.bytes false = .ok (some parsed) ∧
      readStoredDocument (ofJson parsed) = .ok document ∧ message.document.Same document ∧
      ∀ d, d = message.document ∨ d = document → Restores P B message d ∧
        ((∀ o ∈ objectsOf P B attachments, ∀ o' ∈ objectsOf P B attachments,
            o.cid = o'.cid → o.bytes = o'.bytes) →
          ∃ wires, wireAttachments P B message.payloadOf d.attachments = .ok wires) := by
  obtain ⟨members, pairs, hs⟩ := stored_of_store hbody hattachments h
  have hbacked : ∀ a ∈ pairs, ∃ payload, Backed P a.1 payload := fun a ha =>
    let ⟨payload, hp, _⟩ := hs.backed a ha
    ⟨payload, hp⟩
  obtain ⟨members', hmembers⟩ : ∃ members', (Json.object members).canonical = .object members' :=
    ⟨_, by rw [Json.canonical]⟩
  have hread := @read_document P members pairs hbacked
  have hcanonical := canonical_document (Json.object members) pairs
  rw [hmembers] at hread hcanonical
  have hijson : IJson 0 (documentJson (.object members') (readBack pairs)) :=
    .of_canonical (hcanonical ▸ hs.ijson.canonical)
  have hbytes : message.bytes.bytes =
      canonicalBytes P (documentJson (.object members') (readBack pairs)) := by
    rw [hs.bytes, ← EventStore.canonicalBytes_canonical, ← hcanonical,
      EventStore.canonicalBytes_canonical]
  have hjws : ∀ a ∈ readBack pairs, a.1.data.jws = ofJson a.2 := by
    intro a ha
    obtain ⟨⟨s, j⟩, _, rfl⟩ := List.mem_map.mp ha
    obtain ⟨descriptor, data⟩ := s
    cases data <;> rfl
  have hfst : (pairs.map fun a => a.1.canonical a.2) = (readBack pairs).map Prod.fst := by
    rw [readBack, List.map_map]
    rfl
  have hroots : rootsOf (readBack pairs) = rootsOf pairs := by
    rw [rootsOf, ← hfst, rootsOf, List.filterMap_map, List.filterMap_map]
    exact congrArg _ (List.filterMap_congr fun a _ => root?_canonical a.1 a.2)
  refine ⟨_, _, ?_, hread, ?_, ?_⟩
  · rw [hs.bytes]
    exact EventStore.parseStrict_canonicalBytes hs.ijson false
  · refine ⟨_, _, by rw [hs.document]; exact document_value hs.jws, ?_,
      Json.same_of_canonical_eq hcanonical.symm⟩
    rw [hfst]
    exact document_value hjws
  · rintro d (rfl | rfl)
    · rw [hs.document]
      refine ⟨fun payloadOf wires hwires => ?_, fun hone => wires_of_backed ?_⟩
      · rw [hs.bodyCid, hs.attachmentCids]
        exact store_again hbacked hs.jws hs.ijson hs.bytes hwires
      · intro s hin
        obtain ⟨a, ha, rfl⟩ := List.mem_map.mp hin
        exact wires_of_stored hs hone a ha
    · refine ⟨fun payloadOf wires hwires => ?_, fun hone => wires_of_backed ?_⟩
      · rw [hs.bodyCid, hs.attachmentCids, ← hroots]
        refine store_again (fun a ha => ?_) hjws hijson hbytes (by rw [← hfst]; exact hwires)
        obtain ⟨b, hb, rfl⟩ := List.mem_map.mp ha
        obtain ⟨payload, hp⟩ := hbacked b hb
        exact ⟨payload, hp.canonical b.2⟩
      · intro s hin
        obtain ⟨a, ha, rfl⟩ := List.mem_map.mp hin
        rw [root?_canonical]
        exact (wires_of_stored hs hone a ha).canonical a.2

end Objects

/-! ## An example -/

/-- Bytes that were read, in an array of their own. -/
def decoded (bytes : Option (List UInt8)) : Except JsString Uint8Array :=
  match bytes with
  | none => .error (lit "not base64url")
  | some bytes => (newUint8Array bytes).mapError lit

/-- Base64url as it is specified. -/
def base64url : Base64Url where
  decode text := decoded (Base64.url.decodePadded text)
  decodeNoPad text := decoded (Base64.url.decode text)
  encodeNoPad bytes := Base64.url.encode bytes.bytes
  decodeNoPad_encodeNoPad bytes := by
    rw [Base64.Alphabet.decode_encode, decoded, newUint8Array_of_lt bytes.length_lt]
    rfl
  unpadded bytes := Base64.Alphabet.pad_notMem_encode bytes.bytes

def exampleBody : JsValue := .object [(lit "text", .str (lit "hi"))]

def exampleAttachments : JsValue :=
  .array [.object [(lit "data", .object [(lit "base64", .str (lit "aGk"))])]]

set_option maxRecDepth 20000 in
theorem exampleBody_stored : ∃ message, storeMessage EventStore.examplePackages base64url
    exampleBody exampleAttachments = .ok message := ⟨_, rfl⟩

/-- A message with one attachment, stored, put on the wire and stored again. -/
theorem stored_documents_round_trip_example :
    ∃ (message : StoredMessage) (document : StoredMessageDocument) (wires : List JsValue)
        (again : StoredMessage), storeMessage EventStore.examplePackages base64url exampleBody
        exampleAttachments = .ok message ∧
      wireAttachments EventStore.examplePackages base64url message.payloadOf
        document.attachments = .ok wires ∧
      storeMessage EventStore.examplePackages base64url document.body (.array wires) = .ok again ∧
      again.bodyCid = message.bodyCid ∧ again.attachmentCids = message.attachmentCids := by
  obtain ⟨message, h⟩ := exampleBody_stored
  have hbody : exampleBody.OwnKeys :=
    .object (List.nodup_singleton _) (List.forall_mem_singleton.mpr (.scalar _))
  have hattachments : exampleAttachments.OwnKeys := by
    refine .array (List.forall_mem_singleton.mpr ?_)
    refine .object (List.nodup_singleton _) (List.forall_mem_singleton.mpr ?_)
    exact .object (List.nodup_singleton _) (List.forall_mem_singleton.mpr (.scalar _))
  obtain ⟨_, document, _, _, _, hall⟩ := stored_documents_round_trip hbody hattachments h
  obtain ⟨hrestores, hwires⟩ := hall document (.inr rfl)
  obtain ⟨wires, hwires⟩ := hwires fun o ho o' ho' _ => by
    have hone : objectsOf EventStore.examplePackages base64url exampleAttachments =
        [objectOf EventStore.examplePackages ⟨[0x68, 0x69], by decide⟩] := rfl
    rw [hone, List.mem_singleton] at ho ho'
    rw [ho, ho']
  obtain ⟨again, hagain, hcid, hcids⟩ := hrestores _ _ hwires
  exact ⟨message, document, wires, again, h, hwires, hagain, hcid, hcids⟩

end Estoc.Vault.Document
