import Estoc.DidPeer.Resolution
import Estoc.EventStore.Agreement
import Estoc.EventStore.Stringify
import Estoc.Lib.Base58

/-!
# A DID that carries and certifies its document

A document is encoded behind the mark of JSON and the DID is the hash of the encoding, so the
long form decodes to the document and nothing else decodes under its short form, short of a
collision. How long either form is follows from the marks: behind them a hash is always 44
letters and a document never fewer than six.
-/

set_option linter.unusedSectionVars false

namespace Estoc.DidPeer

open Json (lit)
open Utf16 (JsString encodeUtf8 isHigh)
open Checked (refuse)
open EventStore (JsValue JsError)

section
variable (P : Packages)

def encodeDocument (document : Record) : Except JsError JsString := do
  let json ← JsValue.stringify P.numbers (.object document)
  pure (toMultibaseB58 P (MULTICODEC_JSON ++ encodeUtf8 (json.getD [])))

/-- Derive the long form from an input document. -/
def encodeLongForm (inputDocument : Record) : Except JsError JsString := do
  let encodedDocument ← encodeDocument P inputDocument
  pure (lit "did:peer:4" ++ hashDocument P encodedDocument ++ lit ":" ++ encodedDocument)

/-- Derive the short form from an input document. -/
def encodeShortForm (inputDocument : Record) : Except JsError JsString := do
  let encodedDocument ← encodeDocument P inputDocument
  pure (lit "did:peer:4" ++ hashDocument P encodedDocument)

/-- The packages are what they are named after, and no sign is spelled on a zero. -/
structure Standard : Prop where
  bs58Encode : ∀ bytes, P.bs58Encode bytes = Base58.encode bytes
  bs58Decode : ∀ text bytes, Base58.decode text = some bytes → P.bs58Decode text = .ok bytes
  sha256 : ∀ bytes, (P.sha256 bytes).length = 32
  numbers : P.numbers.text .negZero = P.numbers.text .zero

end

/-! ## The forms, taken apart -/

theorem isB58_of_mem {u : UInt16} (h : u ∈ Base58.alphabet) : isB58 u = true :=
  List.contains_iff_mem.mpr h

theorem ascii_of_isB58 {u : UInt16} (hu : isB58 u = true) : u.toNat < 0x80 := by
  have hall : B58.all (fun u => u.toNat < 0x80) = true := by decide
  exact of_decide_eq_true (List.all_eq_true.mp hall u (List.contains_iff_mem.mp hu))

theorem isShortForm_iff {did : JsString} : isShortForm did = true ↔
    ∃ letters, did = prefix4 ++ letters ∧ letters.length = 44 ∧ ∀ u ∈ letters, isB58 u = true := by
  rw [isShortForm, Bool.and_eq_true, Bool.and_eq_true, List.all_eq_true, beq_iff_eq]
  constructor
  · rintro ⟨⟨hstart, hlength⟩, hletters⟩
    obtain ⟨letters, rfl⟩ := List.isPrefixOf_iff_prefix.mp hstart
    exact ⟨letters, rfl, hlength, hletters⟩
  · rintro ⟨letters, rfl, hlength, hletters⟩
    exact ⟨⟨List.isPrefixOf_iff_prefix.mpr (List.prefix_append _ _), hlength⟩, hletters⟩

theorem length_of_isShortForm {short : JsString} (h : isShortForm short = true) :
    short.length = 57 := by
  obtain ⟨letters, rfl, hletters, -⟩ := isShortForm_iff.mp h
  rw [List.length_append, hletters]
  rfl

theorem isLongForm_iff {did : JsString} : isLongForm did = true ↔
    ∃ short body, did = short ++ (lit ":z" ++ body) ∧ isShortForm short = true ∧
      6 ≤ body.length ∧ ∀ u ∈ body, isB58 u = true := by
  rw [isLongForm, Bool.and_eq_true, Bool.and_eq_true, Bool.and_eq_true, List.all_eq_true, beq_iff_eq,
    decide_eq_true_iff]
  constructor
  · rintro ⟨⟨⟨hshort, hmark⟩, hmany⟩, hbody⟩
    refine ⟨did.take 57, did.drop 59, ?_, hshort, hmany, hbody⟩
    have hbehind : did.drop 59 = (did.drop 57).drop 2 := by rw [List.drop_drop]
    rw [← hmark, hbehind, List.take_append_drop, List.take_append_drop]
  · rintro ⟨short, body, rfl, hshort, hmany, hbody⟩
    have h57 := length_of_isShortForm hshort
    have hdrop : (short ++ (lit ":z" ++ body)).drop 57 = lit ":z" ++ body := by
      rw [← h57, List.drop_left]
    have hdrop' : (short ++ (lit ":z" ++ body)).drop 59 = body := by
      rw [show 59 = 57 + 2 from rfl, ← List.drop_drop, hdrop]
      rfl
    rw [hdrop, hdrop', ← h57, List.take_left]
    exact ⟨⟨⟨hshort, rfl⟩, hmany⟩, hbody⟩

theorem not_isShortForm_of_isLongForm {did : JsString} (h : isLongForm did = true) :
    isShortForm did = false := by
  obtain ⟨short, body, rfl, hshort, -, -⟩ := isLongForm_iff.mp h
  rw [← Bool.not_eq_true]
  intro hboth
  have hlength := length_of_isShortForm hboth
  rw [List.length_append, List.length_append, length_of_isShortForm hshort] at hlength
  have hmark : (lit ":z").length = 2 := rfl
  omega

theorem colon_notMem {text : JsString} (h : ∀ u ∈ text, isB58 u = true) : Json.colon ∉ text :=
  fun hmem => ne_colon_of_b58 (h _ hmem) rfl

section
variable {P : Packages}

/-- Hash and document, split at the colon between them. -/
theorem decodeAnew_joined (hash encodedDocument : JsString) (hhash : Json.colon ∉ hash)
    (hencoded : Json.colon ∉ encodedDocument) :
    decodeAnew P (lit "did:peer:4" ++ hash ++ lit ":" ++ encodedDocument) =
      (refuse (hash ≠ hashDocument P encodedDocument) (lit "Hash is invalid for did: " ++
        (lit "did:peer:4" ++ hash ++ lit ":" ++ encodedDocument)) >>= fun _ =>
      decodeDocument P encodedDocument) := by
  have hdrop : (lit "did:peer:4" ++ hash ++ lit ":" ++ encodedDocument).drop 10 =
      hash ++ Json.colon :: encodedDocument := by
    rw [List.append_assoc, List.append_assoc]
    rfl
  rw [decodeAnew, hdrop, List.splitOn_append_cons_self_of_not_mem hhash,
    List.splitOn_eq_singleton hencoded]

/-- What `decodeLongForm` checks before it decodes is the form alone. -/
theorem decodeLongForm_eq {did : JsString} (hlong : isLongForm did = true) :
    decodeLongForm P did = decodeAnew P did := by
  obtain ⟨short, body, hdid, hshort, -, -⟩ := isLongForm_iff.mp hlong
  obtain ⟨letters, hletters, -, -⟩ := isShortForm_iff.mp hshort
  have hstart : (lit "did:peer:4").isPrefixOf did = true := by
    rw [hdid, hletters]
    exact List.isPrefixOf_iff_prefix.mpr ⟨lit "zQm" ++ letters ++ (lit ":z" ++ body), by
      rw [List.append_assoc (lit "zQm"), ← List.append_assoc]
      exact (List.append_assoc _ _ _).symm⟩
  rw [decodeLongForm, Checked.refuse_of_not (by simp [hstart]), Checked.ok_bind,
    Checked.refuse_of_not (by simp [not_isShortForm_of_isLongForm hlong]), Checked.ok_bind,
    Checked.refuse_of_not (by simp [hlong]), Checked.ok_bind]

variable (h : Standard P)

include h

/-- A hash is `zQm` and 44 letters. -/
theorem hashDocument_eq (encodedDocument : JsString) : ∃ letters,
    hashDocument P encodedDocument = lit "zQm" ++ letters ∧ letters.length = 44 ∧
      ∀ u ∈ letters, isB58 u = true := by
  have hdigest := h.sha256 (encodeUtf8 encodedDocument)
  obtain ⟨letters, hletters, hlength⟩ := Base58.encode_multihash hdigest
  refine ⟨letters, ?_, hlength, fun u hu => isB58_of_mem
    (Base58.letters_encode (0x12 :: 0x20 :: P.sha256 (encodeUtf8 encodedDocument)) u ?_)⟩
  · rw [hashDocument, toMultibaseB58, h.bs58Encode]
    exact congrArg (MULTIBASE_BASE58BTC :: ·) hletters
  · rw [hletters]
    exact List.mem_append_right _ hu

/-- Text behind the mark of JSON is `z` and letters, six or more as soon as it is two bytes. -/
theorem toMultibaseB58_json (bytes : List UInt8) (hbytes : 2 ≤ bytes.length) :
    ∃ body, toMultibaseB58 P (MULTICODEC_JSON ++ bytes) = lit "z" ++ body ∧
      6 ≤ body.length ∧ (∀ u ∈ body, isB58 u = true) ∧
      P.bs58Decode body = .ok (MULTICODEC_JSON ++ bytes) := by
  refine ⟨Base58.encode (MULTICODEC_JSON ++ bytes), ?_, ?_, ?_, ?_⟩
  · rw [toMultibaseB58, h.bs58Encode]
    rfl
  · exact Base58.six_le_length_encode (by decide) (by
      show 3 ≤ (0x04 :: bytes).length
      rw [List.length_cons]
      omega)
  · exact fun u hu => isB58_of_mem (Base58.letters_encode _ u hu)
  · exact h.bs58Decode _ _ (Base58.decode_encode _)

theorem isShortForm_hash (encodedDocument : JsString) :
    isShortForm (lit "did:peer:4" ++ hashDocument P encodedDocument) = true := by
  obtain ⟨letters, hhash, hlength, hletters⟩ := hashDocument_eq h encodedDocument
  refine isShortForm_iff.mpr ⟨letters, ?_, hlength, hletters⟩
  rw [hhash, ← List.append_assoc]
  rfl

theorem colon_notMem_hash (encodedDocument : JsString) :
    Json.colon ∉ hashDocument P encodedDocument := by
  obtain ⟨letters, hhash, -, hletters⟩ := hashDocument_eq h encodedDocument
  rw [hhash]
  intro hmem
  rcases List.mem_append.mp hmem with hmem | hmem
  · exact absurd hmem (by decide)
  · exact colon_notMem hletters hmem

/-! ## What is encoded decodes -/

theorem encodeDocument_ofMembers {d : Members} (hfinite : (Json.object d).Finite) :
    encodeDocument P (JsValue.ofMembers d) = .ok (toMultibaseB58 P (MULTICODEC_JSON ++
      encodeUtf8 (JsValue.stringifying.write P.numbers (.object d)))) := by
  have hjson := JsValue.stringify_ofJson (N := P.numbers) hfinite
  rw [JsValue.ofJson] at hjson
  rw [encodeDocument, hjson]
  rfl

/-- The text of an object begins with a brace, so it is two bytes and has no mark. -/
theorem encodeUtf8_object (d : Members) : ∃ rest,
    encodeUtf8 (JsValue.stringifying.write P.numbers (.object d)) = 0x7B :: rest ∧
      1 ≤ rest.length := by
  have hascii : ∀ u ∈ lit "\x7b\x7d\"", ∀ text, encodeUtf8 (u :: text) =
      u.toUInt8 :: encodeUtf8 text := by
    intro u hu text
    have hall : (lit "\x7b\x7d\"").all (fun u => isHigh u = false ∧
        String.utf8EncodeChar (Utf16.unitChar u) = [u.toUInt8]) = true := by decide
    have hsingle := of_decide_eq_true (List.all_eq_true.mp hall u hu)
    rw [encodeUtf8, Utf16.chars_cons_single hsingle.1, List.flatMap_cons, hsingle.2]
    rfl
  cases d with
  | nil =>
      refine ⟨encodeUtf8 [Json.rbrace], hascii Json.lbrace (by decide) _, ?_⟩
      decide
  | cons m ms =>
      refine ⟨_, hascii Json.lbrace (by decide) _, ?_⟩
      rw [Json.Quoting.quote, List.cons_append, hascii Json.dquote (by decide)]
      exact Nat.succ_le_succ (Nat.zero_le _)

theorem decodeDocument_encoded {d : Members} (hdistinct : (Json.object d).Distinct)
    (hfinite : (Json.object d).Finite) {body : JsString} (hbody : P.bs58Decode body =
      .ok (MULTICODEC_JSON ++ encodeUtf8 (JsValue.stringifying.write P.numbers (.object d)))) :
    decodeDocument P (lit "z" ++ body) = .ok (Json.unsignedMembers d) := by
  have hparse := Json.parse_quoting JsValue.stringifying h.numbers hfinite hdistinct
  have hpaired := JsValue.loneSurrogate_stringified (N := P.numbers) hfinite
  obtain ⟨rest, hbrace, -⟩ := encodeUtf8_object (P := P) h d
  generalize JsValue.stringifying.write P.numbers (.object d) = text at *
  have hmark : (encodeUtf8 text).take 3 ≠ [0xEF, 0xBB, 0xBF] := by
    rw [hbrace]
    exact fun h => absurd (List.cons.inj h).1 (by decide)
  have htext : TextDecoder.decode (encodeUtf8 text) = text :=
    TextDecoder.decode_of_decodeFatal (TextDecoder.decodeFatal_encodeUtf8 hpaired hmark)
  have hbytes : fromMultibaseB58 P (lit "z" ++ body) = .ok (MULTICODEC_JSON ++ encodeUtf8 text) := by
    have hz : ¬(lit "z" ++ body).head? ≠ some MULTIBASE_BASE58BTC := not_not_intro rfl
    rw [fromMultibaseB58, Checked.refuse_of_not hz]
    exact hbody
  have htag : ¬(MULTICODEC_JSON ++ encodeUtf8 text).take 2 ≠ MULTICODEC_JSON := not_not_intro rfl
  rw [decodeDocument, hbytes, Checked.ok_bind, Checked.refuse_of_not htag, Checked.ok_bind]
  have hdrop : (MULTICODEC_JSON ++ encodeUtf8 text).drop 2 = encodeUtf8 text := rfl
  rw [hdrop, htext]
  dsimp only
  rw [hparse]
  rfl

theorem encode_decodes {d : Members} (hdistinct : (Json.object d).Distinct)
    (hfinite : (Json.object d).Finite) : ∃ long short,
    encodeLongForm P (JsValue.ofMembers d) = .ok long ∧ isLongForm long = true ∧
    decodeLongForm P long = .ok (Json.unsignedMembers d) ∧
    encodeShortForm P (JsValue.ofMembers d) = .ok short ∧ isShortForm short = true ∧
    longToShort long = .ok short := by
  obtain ⟨rest, hbrace, hrest⟩ := encodeUtf8_object (P := P) h d
  obtain ⟨body, hbody, hmany, hletters, hdecoded⟩ := toMultibaseB58_json h
    (encodeUtf8 (JsValue.stringifying.write P.numbers (.object d))) (by
      rw [hbrace, List.length_cons]
      omega)
  have hencoded := encodeDocument_ofMembers h hfinite
  rw [hbody] at hencoded
  have hshort := isShortForm_hash h (lit "z" ++ body)
  have hjoined : lit "did:peer:4" ++ hashDocument P (lit "z" ++ body) ++ lit ":" ++ (lit "z" ++ body) =
      lit "did:peer:4" ++ hashDocument P (lit "z" ++ body) ++ (lit ":z" ++ body) := by
    rw [List.append_assoc]
    rfl
  have hlong : isLongForm (lit "did:peer:4" ++ hashDocument P (lit "z" ++ body) ++ lit ":" ++
      (lit "z" ++ body)) = true :=
    isLongForm_iff.mpr ⟨_, body, hjoined, hshort, hmany, hletters⟩
  have hcolon : Json.colon ∉ lit "z" ++ body := by
    intro hmem
    rcases List.mem_append.mp hmem with hmem | hmem
    · exact absurd hmem (by decide)
    · exact colon_notMem hletters hmem
  refine ⟨_, _, ?_, hlong, ?_, ?_, hshort, ?_⟩
  · rw [encodeLongForm, hencoded]
    rfl
  · rw [decodeLongForm_eq hlong, decodeAnew_joined _ _ (colon_notMem_hash h _) hcolon,
      Checked.refuse_of_not (not_not_intro rfl), Checked.ok_bind]
    exact decodeDocument_encoded h hdistinct hfinite hdecoded
  · rw [encodeShortForm, hencoded]
    rfl
  · rw [longToShort_eq hlong, hjoined, ← length_of_isShortForm hshort, List.take_left]

/-! ## What decodes was encoded -/

/-- What is accepted is the hash of its document in front of the document. -/
theorem accepted {did : JsString} {document : Members} (hdid : decodeLongForm P did = .ok document) :
    isLongForm did = true ∧ ∃ encoded, did =
        lit "did:peer:4" ++ hashDocument P encoded ++ lit ":" ++ encoded ∧
      longToShort did = .ok (lit "did:peer:4" ++ hashDocument P encoded) ∧
      ∀ u ∈ encoded, u.toNat < 0x80 := by
  have hlong : isLongForm did = true := by
    obtain ⟨-, hrest⟩ := Checked.refuse_bind_eq_ok.mp hdid
    obtain ⟨-, hrest⟩ := Checked.refuse_bind_eq_ok.mp hrest
    simpa using (Checked.refuse_bind_eq_ok.mp hrest).1
  obtain ⟨short, body, hshape, hshort, -, hbody⟩ := isLongForm_iff.mp hlong
  obtain ⟨letters, rfl, -, hletters⟩ := isShortForm_iff.mp hshort
  have hplain : ∀ {front text : JsString}, Json.colon ∉ front → (∀ u ∈ text, isB58 u = true) →
      Json.colon ∉ front ++ text := by
    intro front text hfront htext hmem
    exact (List.mem_append.mp hmem).elim hfront (colon_notMem htext)
  have hjoined : did = lit "did:peer:4" ++ (lit "zQm" ++ letters) ++ lit ":" ++ (lit "z" ++ body) := by
    rw [hshape, List.append_assoc, List.append_assoc, List.append_assoc, List.append_assoc]
    rfl
  rw [decodeLongForm_eq hlong, hjoined, decodeAnew_joined _ _ (hplain (by decide) hletters)
    (hplain (by decide) hbody)] at hdid
  obtain ⟨hhash, -⟩ := Checked.refuse_bind_eq_ok.mp hdid
  have hcut := longToShort_eq hlong
  rw [hshape, ← length_of_isShortForm hshort, List.take_left, ← hshape] at hcut
  refine ⟨hlong, lit "z" ++ body, ?_, ?_, ?_⟩
  · rw [hjoined, not_not.mp hhash]
  · rw [hcut, ← not_not.mp hhash, ← List.append_assoc]
    rfl
  · intro u hu
    rcases List.mem_append.mp hu with hu | hu
    · rw [List.mem_singleton.mp (show u ∈ ['z'.toNat.toUInt16] from hu)]
      decide
    · exact ascii_of_isB58 (hbody u hu)

/-- Documents with one hash are one document, or their bytes collide. -/
theorem collision {encoded encoded' : JsString} (hascii : ∀ u ∈ encoded, u.toNat < 0x80)
    (hascii' : ∀ u ∈ encoded', u.toNat < 0x80)
    (hhash : hashDocument P encoded = hashDocument P encoded') :
    encoded = encoded' ∨ encodeUtf8 encoded ≠ encodeUtf8 encoded' ∧
      P.sha256 (encodeUtf8 encoded) = P.sha256 (encodeUtf8 encoded') := by
  have hdigest : P.sha256 (encodeUtf8 encoded) = P.sha256 (encodeUtf8 encoded') := by
    rw [hashDocument, hashDocument, toMultibaseB58, toMultibaseB58, h.bs58Encode, h.bs58Encode] at hhash
    exact List.append_cancel_left (Base58.encode_injective (List.cons.inj hhash).2)
  by_cases hbytes : encodeUtf8 encoded = encodeUtf8 encoded'
  · exact .inl (Utf16.encodeUtf8_injective (Utf16.loneSurrogate_ascii hascii)
      (Utf16.loneSurrogate_ascii hascii') hbytes)
  · exact .inr ⟨hbytes, hdigest⟩

theorem resolutions {did : JsString} {document : Members}
    (hdid : decodeLongForm P did = .ok document) : ∃ short long' short',
    longToShort did = .ok short ∧ resolveLongForm P did = .ok long' ∧
      resolveShortForm P did = .ok short' ∧ List.Forall₂ (SameMember did short) long' short' := by
  obtain ⟨-, encoded, -, hshort, -⟩ := accepted h hdid
  refine ⟨_, _, _, hshort, ?_, ?_, same_resolutions document⟩
  · rw [resolveLongForm, hdid, Checked.ok_bind, hshort]
    rfl
  · rw [resolveShortForm, hshort, Checked.ok_bind, hdid]
    rfl

/-- A JSON object encodes to a long form that decodes to it, its short form cut from it; what
is accepted is the hash of its document, so two accepted long forms with one short form are
one, or their documents collide; the two resolutions differ in what is set to the DID; and a
document under a DID keeps no relative reference once they are made absolute. -/
theorem long_form_certifies_its_document :
    (∀ d : Members, (Json.object d).Distinct → (Json.object d).Finite → ∃ long short,
      encodeLongForm P (JsValue.ofMembers d) = .ok long ∧ isLongForm long = true ∧
      decodeLongForm P long = .ok (Json.unsignedMembers d) ∧
      encodeShortForm P (JsValue.ofMembers d) = .ok short ∧ isShortForm short = true ∧
      longToShort long = .ok short) ∧
    (∀ did document, decodeLongForm P did = .ok document → ∃ hash encoded,
      did = lit "did:peer:4" ++ hash ++ lit ":" ++ encoded ∧
      hash = lit "z" ++ P.bs58Encode (MULTIHASH_SHA2_256 ++ P.sha256 (encodeUtf8 encoded))) ∧
    (∀ did did' document document', decodeLongForm P did = .ok document →
      decodeLongForm P did' = .ok document' → longToShort did = longToShort did' →
      did = did' ∨ ∃ hash encoded encoded',
        did = lit "did:peer:4" ++ hash ++ lit ":" ++ encoded ∧
        did' = lit "did:peer:4" ++ hash ++ lit ":" ++ encoded' ∧
        encodeUtf8 encoded ≠ encodeUtf8 encoded' ∧
        P.sha256 (encodeUtf8 encoded) = P.sha256 (encodeUtf8 encoded')) ∧
    (∀ did document, decodeLongForm P did = .ok document → ∃ short long' short',
      longToShort did = .ok short ∧ resolveLongForm P did = .ok long' ∧
      resolveShortForm P did = .ok short' ∧ List.Forall₂ (SameMember did short) long' short') ∧
    (∀ document did, JsValue.get document (lit "id") = JsValue.str did → Vault.isDid did = true →
      absolutizeReferences (absolutizeReferences document) = absolutizeReferences document ∧
      Absolute (absolutizeReferences document)) := by
  refine ⟨fun d => encode_decodes h, ?_, ?_, fun did document => resolutions h, ?_⟩
  · intro did document hdid
    obtain ⟨-, encoded, hdid, -⟩ := accepted h hdid
    exact ⟨_, encoded, hdid, rfl⟩
  · intro did did' document document' hdid hdid' hshort
    obtain ⟨-, encoded, hshape, hcut, hascii⟩ := accepted h hdid
    obtain ⟨-, encoded', hshape', hcut', hascii'⟩ := accepted h hdid'
    rw [hcut, hcut'] at hshort
    have hhash := List.append_cancel_left (Except.ok.inj hshort)
    rcases collision h hascii hascii' hhash with rfl | hcollides
    · exact .inl (hshape.trans hshape'.symm)
    · exact .inr ⟨_, encoded, encoded', hshape, hhash ▸ hshape', hcollides⟩
  · exact fun document did hid hdid => ⟨absolutizeReferences_absolutizeReferences
      (fronts_of_isDid hdid) hid, absolute_absolutizeReferences (fronts_of_isDid hdid) hid⟩

end

/-- The digest of the example's document part, given for all. -/
def examplePackages : Packages where
  sha256 _ := [0xB3, 0x71, 0x0B, 0x00, 0x11, 0xA5, 0x6A, 0x43, 0xA9, 0x9B, 0x62, 0xE3, 0xC9, 0x9C,
    0x44, 0x5D, 0x30, 0xB3, 0x69, 0xC9, 0xA3, 0x2C, 0x91, 0x15, 0xA2, 0xB5, 0xA3, 0x03, 0x52, 0x26,
    0x86, 0xDD]
  bs58Encode := Base58.encode
  bs58Decode text :=
    match Base58.decode text with
    | some bytes => .ok bytes
    | none => .error (lit "Non-base58 character")
  serialize v := .ok (Json.canonicalText EventStore.patternNumbers v)
  numbers := EventStore.patternNumbers
  syntaxError text := lit "Unexpected token in JSON: " ++ text

def exampleDocument : Members :=
  [(lit "verificationMethod", .array [.object [(lit "id", .scalar (.string (lit "#key-1"))),
      (lit "type", .scalar (.string (lit "Multikey")))]]),
    (lit "service", .array [.object [(lit "id", .scalar (.string (lit "#service"))),
      (lit "type", .scalar (.string (lit "DIDCommMessaging")))]])]

theorem standard_examplePackages : Standard examplePackages where
  bs58Encode _ := rfl
  bs58Decode text bytes h := by
    show (match Base58.decode text with | some bytes => _ | none => _) = _
    rw [h]
  sha256 _ := rfl
  numbers := rfl

theorem long_form_certifies_its_document_example :
    (∃ long short,
      encodeLongForm examplePackages (JsValue.ofMembers exampleDocument) = .ok long ∧
      isLongForm long = true ∧ decodeLongForm examplePackages long = .ok exampleDocument ∧
      encodeShortForm examplePackages (JsValue.ofMembers exampleDocument) = .ok short ∧
      isShortForm short = true ∧ longToShort long = .ok short) ∧
    Absolute (absolutizeReferences
      ((lit "id", JsValue.str (lit "did:example:1")) :: JsValue.ofMembers exampleDocument)) := by
  obtain ⟨hencode, -, -, -, hreferences⟩ :=
    long_form_certifies_its_document standard_examplePackages
  have hentry : ∀ id type : JsString,
      (Json.object [(lit "id", .scalar (.string id)), (lit "type", .scalar (.string type))]).Distinct ∧
      (Json.object [(lit "id", .scalar (.string id)), (lit "type", .scalar (.string type))]).Finite := by
    intro id type
    have hnames : [lit "id", lit "type"].Nodup := by decide
    refine ⟨.object hnames fun m hm => ?_, .object fun m hm => ?_⟩
    · rcases List.mem_cons.mp hm with rfl | hm
      · exact .scalar _
      · rw [List.mem_singleton.mp hm]
        exact .scalar _
    · rcases List.mem_cons.mp hm with rfl | hm
      · exact .scalar fun x h => by cases h
      · rw [List.mem_singleton.mp hm]
        exact .scalar fun x h => by cases h
  refine ⟨hencode exampleDocument (.object (by decide) fun m hm => ?_) (.object fun m hm => ?_),
    (hreferences _ (lit "did:example:1") rfl (by decide)).2⟩
  · rcases List.mem_cons.mp hm with rfl | hm
    · exact .array fun v hv => List.mem_singleton.mp hv ▸ (hentry _ _).1
    · rw [List.mem_singleton.mp hm]
      exact .array fun v hv => List.mem_singleton.mp hv ▸ (hentry _ _).1
  · rcases List.mem_cons.mp hm with rfl | hm
    · exact .array fun v hv => List.mem_singleton.mp hv ▸ (hentry _ _).2
    · rw [List.mem_singleton.mp hm]
      exact .array fun v hv => List.mem_singleton.mp hv ▸ (hentry _ _).2

end Estoc.DidPeer
