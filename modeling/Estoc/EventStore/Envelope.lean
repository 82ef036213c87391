import Estoc.EventStore.Event
import Estoc.EventStore.JcsRoundTrip

/-!
# What an accepted envelope is

The validators agree because each of them lets through the same envelopes:
`ValidEnvelope` says which. A checked value has one, any value that holds the fields of
one is checked to it, a draft with a valid `at` and `author` has one, and the canonical
form of one is one.
-/

set_option linter.unusedSectionVars false

namespace Estoc.EventStore

open Json (lit)
open Utf16 (JsString codePoints)
open Checked (refuse refuse_of_not refuse_bind_eq_ok bind_eq_ok)
open Estoc.Dasl (DaslCid codecOf RAW_CODE parseCid_text)

/-! ## Plain text -/

/-- A unit of ASCII that is not NUL. -/
def PlainUnit (u : UInt16) : Prop := u.toNat < 0x80 ∧ u ≠ 0

theorem codePoints_ascii : {s : JsString} → (h : ∀ u ∈ s, u.toNat < 0x80) →
    codePoints s = s.map UInt16.toNat
  | [], _ => rfl
  | [_], _ => rfl
  | u :: v :: rest, h => by
      have hpair : ¬ (Utf16.isHigh u && Utf16.isLow v) = true := by
        have hu := h u List.mem_cons_self
        rw [Bool.and_eq_true, Utf16.isHigh_iff]
        omega
      rw [codePoints, if_neg hpair, codePoints_ascii (List.forall_mem_cons.mp h).2]
      rfl

theorem forbiddenIn_ascii {s : JsString} (h : ∀ u ∈ s, u.toNat < 0x80) :
    forbiddenIn s false = none := by
  rw [forbiddenIn_eq_none, codePoints_ascii h]
  intro code hcode
  obtain ⟨u, hu, rfl⟩ := List.mem_map.mp hcode
  have hlt := h u hu
  have h1 : Utf16.isSurrogate u.toNat = false := Utf16.isSurrogate_of_lt (by omega)
  have h2 : isNoncharacter u.toNat = false := by
    simp [isNoncharacter]
    omega
  simp [isForbidden, h1, h2]

theorem units_of_fits {cs : List (UInt16 → Bool)} {s : JsString} (h : fits cs s = true) :
    ∀ u ∈ s, ∃ c ∈ cs, c u = true := by
  induction cs generalizing s with
  | nil =>
      cases s with
      | nil => intro u hu; cases hu
      | cons u s => simp [fits] at h
  | cons c cs ih =>
      cases s with
      | nil => intro u hu; cases hu
      | cons v s =>
          rw [fits, Bool.and_eq_true] at h
          intro u hu
          rcases List.mem_cons.mp hu with rfl | hu
          · exact ⟨c, List.mem_cons_self, h.1⟩
          · obtain ⟨c', hc', hu⟩ := ih h.2 u hu
            exact ⟨c', List.mem_cons_of_mem _ hc', hu⟩

theorem plain_of_digit {u : UInt16} (h : Json.isDigit u = true) : PlainUnit u := by
  simp only [Json.isDigit, Bool.and_eq_true, decide_eq_true_eq] at h
  refine ⟨by omega, fun h0 => ?_⟩
  rw [h0] at h
  exact absurd h.1 (by decide)

theorem plain_of_hexLower {u : UInt16} (h : isHexLower u = true) : PlainUnit u := by
  rw [isHexLower, Bool.or_eq_true] at h
  rcases h with h | h
  · exact plain_of_digit h
  · simp only [Bool.and_eq_true, decide_eq_true_eq] at h
    refine ⟨by omega, fun h0 => ?_⟩
    rw [h0] at h
    exact absurd h.1 (by decide)

theorem plain_of_eq {w : UInt16} (hw : PlainUnit w) {u : UInt16} (h : (u == w) = true) :
    PlainUnit u := by
  rw [eq_of_beq h]
  exact hw

theorem plain_of_variant {u : UInt16} (h : isVariant u = true) : PlainUnit u := by
  simp only [isVariant, Bool.or_eq_true, beq_iff_eq] at h
  rcases h with ((rfl | rfl) | rfl) | rfl <;> exact ⟨by decide, by decide⟩

/-- Every class of a pattern is of plain units. -/
def PlainClasses (cs : List (UInt16 → Bool)) : Prop :=
  ∀ c ∈ cs, ∀ u, c u = true → PlainUnit u

theorem plain_at : PlainClasses AT := by
  intro c hc u hu
  simp only [AT, List.mem_append, List.mem_cons, List.mem_replicate, List.not_mem_nil,
    or_false] at hc
  rcases hc with ((((((⟨_, rfl⟩ | rfl | ⟨_, rfl⟩) | rfl | ⟨_, rfl⟩) | rfl | ⟨_, rfl⟩) | rfl |
    ⟨_, rfl⟩) | rfl | ⟨_, rfl⟩) | rfl | ⟨_, rfl⟩) | rfl
  all_goals first
    | exact plain_of_digit hu
    | exact plain_of_eq ⟨by decide, by decide⟩ hu

theorem plain_uuidv7 : PlainClasses UUIDV7 := by
  intro c hc u hu
  simp only [UUIDV7, List.mem_append, List.mem_cons, List.mem_replicate] at hc
  rcases hc with (((⟨_, rfl⟩ | rfl | ⟨_, rfl⟩) | rfl | rfl | ⟨_, rfl⟩) | rfl | rfl | ⟨_, rfl⟩) |
    rfl | ⟨_, rfl⟩
  all_goals first
    | exact plain_of_hexLower hu
    | exact plain_of_variant hu
    | exact plain_of_eq ⟨by decide, by decide⟩ hu

theorem plain_of_fits {cs : List (UInt16 → Bool)} (hcs : PlainClasses cs) {s : JsString}
    (h : fits cs s = true) : ∀ u ∈ s, PlainUnit u := by
  intro u hu
  obtain ⟨c, hc, hu⟩ := units_of_fits h u hu
  exact hcs c hc u hu

theorem plain_of_canonicalAt {s : JsString} (h : isCanonicalAt s = true) :
    ∀ u ∈ s, PlainUnit u := by
  rw [isCanonicalAt, Bool.and_eq_true] at h
  exact plain_of_fits plain_at h.1

theorem plain_of_authorId {s : JsString} (h : isAuthorId s = true) : ∀ u ∈ s, PlainUnit u :=
  plain_of_fits plain_uuidv7 h

theorem plain_text (cid : DaslCid) : ∀ u ∈ cid.text, PlainUnit u := by
  intro u hu
  obtain ⟨h1, h2⟩ := cid.ascii_text u hu
  refine ⟨h2, fun h0 => ?_⟩
  rw [h0] at h1
  exact absurd h1 (by decide)

theorem plain_of_rawCid {s : JsString} (h : isRawCid s = true) : ∀ u ∈ s, PlainUnit u := by
  rw [isRawCid, beq_iff_eq, codecOf] at h
  cases hparse : Dasl.parseCid s with
  | error e =>
      rw [hparse] at h
      cases h
  | ok cid =>
      rw [← Dasl.parseCid_eq_ok hparse]
      exact plain_text cid

theorem isRawCid_rawCidFromDigest (digest : Digest) :
    isRawCid (rawCidFromDigest digest).text = true := by
  rw [isRawCid, codecOf, parseCid_text]
  rfl

/-! ## What a checked value becomes -/

theorem admit_str {s : JsString} {depth : Nat} {path : JsString} {j : Json}
    (h : admitValue (.str s) depth path = .ok j) : j = jsonStr s := by
  rw [JsValue.str, admitValue, bind_eq_ok] at h
  obtain ⟨_, _, h⟩ := h
  cases h
  rfl

theorem admitElements_strs {texts : List JsString} {depth : Nat} {path : JsString} :
    ∀ {i : Nat} {items : List Json},
      admitElements (texts.map .str) i depth path = .ok items → items = texts.map jsonStr := by
  induction texts with
  | nil =>
      intro i items h
      rw [List.map_nil, admitElements] at h
      cases h
      rfl
  | cons s texts ih =>
      intro i items h
      rw [List.map_cons, admitElements, bind_eq_ok] at h
      obtain ⟨j, hj, h⟩ := h
      rw [bind_eq_ok] at h
      obtain ⟨rest, hrest, h⟩ := h
      cases h
      rw [admit_str hj, ih hrest, List.map_cons]

theorem admit_strs {texts : List JsString} {depth : Nat} {path : JsString} {j : Json}
    (h : admitValue (.array (texts.map .str)) depth path = .ok j) :
    j = .array (texts.map jsonStr) := by
  rw [admitValue, refuse_bind_eq_ok, bind_eq_ok] at h
  obtain ⟨_, items, hitems, h⟩ := h
  cases h
  rw [admitElements_strs hitems]

theorem admit_object {members : List (JsString × JsValue)} {depth : Nat} {path : JsString}
    {j : Json} (h : admitValue (.object members) depth path = .ok j) :
    ∃ result, j = .object result ∧ admitMembers members [] (depth + 1) path = .ok result := by
  rw [admitValue, refuse_bind_eq_ok, bind_eq_ok] at h
  obtain ⟨_, result, hresult, h⟩ := h
  cases h
  exact ⟨result, rfl, hresult⟩

/-- A member admitted. -/
def Admits (depth : Nat) (m : JsString × JsValue) (r : JsString × Json) : Prop :=
  r.1 = m.1 ∧ ∃ path, admitValue m.2 depth path = .ok r.2

/-- Members of distinct names are admitted one by one. -/
theorem admitMembers_admits {members : List (JsString × JsValue)} {depth : Nat}
    {path : JsString} :
    ∀ {admitted result : List (JsString × Json)},
      (admitted.map Prod.fst ++ members.map Prod.fst).Nodup →
      admitMembers members admitted depth path = .ok result →
      ∃ added, result = admitted ++ added ∧ List.Forall₂ (Admits depth) members added := by
  induction members with
  | nil =>
      intro admitted result _ h
      rw [admitMembers] at h
      cases h
      exact ⟨[], (List.append_nil _).symm, .nil⟩
  | cons m members ih =>
      intro admitted result hnodup h
      obtain ⟨key, value⟩ := m
      rw [admitMembers, bind_eq_ok] at h
      obtain ⟨_, _, h⟩ := h
      rw [refuse_bind_eq_ok, bind_eq_ok] at h
      obtain ⟨_, j, hj, h⟩ := h
      have hnew : key ∉ admitted.map Prod.fst := fun hmem =>
        (List.nodup_append.mp hnodup).2.2 _ hmem _ List.mem_cons_self rfl
      rw [define_of_notMem hnew] at h
      have hnodup' : ((admitted ++ [(key, j)]).map Prod.fst ++ members.map Prod.fst).Nodup := by
        simpa using hnodup
      obtain ⟨added, rfl, hadded⟩ := ih hnodup' h
      exact ⟨(key, j) :: added, by simp, .cons ⟨rfl, _, hj⟩ hadded⟩

theorem plain_eq_ok {value : JsValue} {j : Json} (h : plain value = .ok j) :
    plainJson value = .ok j := by
  rw [plain] at h
  split at h
  · cases h
  · exact h

theorem plain_of_ok {value : JsValue} {j : Json} (h : plainJson value = .ok j) :
    plain value = .ok j := by
  rw [plain, h]

/-- The plain data of an object with distinct names: each member in its place. -/
theorem plain_object {members : List (JsString × JsValue)} {j : Json}
    (h : plain (.object members) = .ok j) (hnodup : (members.map Prod.fst).Nodup) :
    IJson 0 j ∧ ∃ added, j = .object added ∧ List.Forall₂ (Admits 1) members added := by
  have h := plain_eq_ok h
  refine ⟨admit_ijson _ _ _ _ h, ?_⟩
  obtain ⟨result, rfl, hresult⟩ := admit_object h
  obtain ⟨added, hadd, hadded⟩ := @admitMembers_admits members 1 _ [] result hnodup hresult
  exact ⟨added, congrArg Json.object hadd, hadded⟩

theorem checkedString_eq_ok {accept : JsString → Bool} {value : JsValue} {message s : JsString} :
    checkedString accept value message = .ok s ↔ value = .str s ∧ accept s = true := by
  unfold checkedString
  cases value with
  | scalar x =>
      cases x with
      | string t =>
          simp only [JsValue.string?, JsValue.str, JsValue.scalar.injEq, Scalar.string.injEq]
          by_cases ht : accept t = true
          · rw [if_pos ht, Checked.pure_eq_ok, Except.ok.injEq]
            refine ⟨fun h => ⟨h, h ▸ ht⟩, fun h => h.1⟩
          · rw [if_neg ht]
            refine ⟨fun h => (by cases h), fun h => absurd (h.1 ▸ h.2) ht⟩
      | _ => simp [JsValue.string?, JsValue.str, throw, throwThe, MonadExceptOf.throw]
  | _ => simp [JsValue.string?, JsValue.str, throw, throwThe, MonadExceptOf.throw]

theorem objectMembers_eq_ok {value : JsValue} {message : JsString}
    {members : List (JsString × JsValue)} :
    objectMembers value message = .ok members ↔ value = .object members := by
  cases value <;> simp [objectMembers, throw, throwThe, MonadExceptOf.throw]

/-! ## Valid envelopes -/

/-- What every validator lets through. -/
structure ValidEnvelope (e : EventEnvelope) : Prop where
  at_ : isCanonicalAt e.at_ = true
  author : isAuthorId e.author = true
  type : e.type ≠ []
  roots : ∀ r ∈ e.roots, isRawCid r = true
  data : ∃ members, e.data = .object members
  ijson : IJson 0 (envelopeOf e)

theorem map_asString (roots : List JsString) :
    ((roots.map jsonStr).map fun v => asString (some v)) = roots := by
  rw [List.map_map]
  exact List.map_id roots

theorem asEnvelope_envelopeOf (e : EventEnvelope) : asEnvelope (envelopeOf e) = e := by
  have hroots : asStrings (member? (envelopeOf e) ROOTS) = e.roots := map_asString e.roots
  rw [asEnvelope, hroots]
  rfl

/-- The parts of an envelope that the JSON checks are about. -/
theorem ijson_envelopeOf {e : EventEnvelope} : IJson 0 (envelopeOf e) ↔
    forbiddenIn e.at_ false = none ∧ forbiddenIn e.author false = none ∧ IJson 1 e.data ∧
      (∀ r ∈ e.roots, forbiddenIn r false = none) ∧ forbiddenIn e.type false = none := by
  refine ⟨fun h => ?_, fun h => ?_⟩
  · cases h with
    | object _ _ _ hvalues =>
        simp only [List.forall_mem_cons] at hvalues
        obtain ⟨hat, hauthor, hdata, hroots, htype, _⟩ := hvalues
        refine ⟨?_, ?_, hdata, ?_, ?_⟩
        · cases hat with | string h => exact h
        · cases hauthor with | string h => exact h
        · cases hroots with
          | array _ hitems =>
              intro r hr
              cases hitems _ (List.mem_map_of_mem hr) with | string h => exact h
        · cases htype with | string h => exact h
  · obtain ⟨hat, hauthor, hdata, hroots, htype⟩ := h
    have hnames : ∀ name ∈ [AT_FIELD, AUTHOR, DATA, ROOTS, TYPE],
        forbiddenIn name false = none := by decide
    refine .object (by decide) (show [AT_FIELD, AUTHOR, DATA, ROOTS, TYPE].Nodup by decide) ?_ ?_
    · intro m hm
      exact hnames m.1 (List.mem_map_of_mem hm)
    simp only [List.forall_mem_cons]
    refine ⟨.string hat, .string hauthor, hdata, .array (by decide) ?_, .string htype, by simp⟩
    intro v hv
    obtain ⟨r, hr, rfl⟩ := List.mem_map.mp hv
    exact .string (hroots r hr)

theorem forbiddenIn_plain {s : JsString} (h : ∀ u ∈ s, PlainUnit u) :
    forbiddenIn s false = none := forbiddenIn_ascii fun u hu => (h u hu).1

/-- With its other fields valid, an envelope is valid where its type and data are. -/
theorem ValidEnvelope.of_fields {e : EventEnvelope} (hat : isCanonicalAt e.at_ = true)
    (hauthor : isAuthorId e.author = true) (htype : e.type ≠ [])
    (hroots : ∀ r ∈ e.roots, isRawCid r = true) (hdata : ∃ members, e.data = .object members)
    (hijson : IJson 1 e.data) (hclean : forbiddenIn e.type false = none) : ValidEnvelope e where
  at_ := hat
  author := hauthor
  type := htype
  roots := hroots
  data := hdata
  ijson := ijson_envelopeOf.mpr ⟨forbiddenIn_plain (plain_of_canonicalAt hat),
    forbiddenIn_plain (plain_of_authorId hauthor), hijson,
    fun r hr => forbiddenIn_plain (plain_of_rawCid (hroots r hr)), hclean⟩

/-- The envelope with its data in canonical form. -/
def EventEnvelope.canonical (e : EventEnvelope) : EventEnvelope :=
  { e with data := e.data.canonical }

theorem canonical_envelopeOf (e : EventEnvelope) :
    (envelopeOf e).canonical = envelopeOf e.canonical := by
  have hroots : Json.canonicalItems (e.roots.map jsonStr) = e.roots.map jsonStr := by
    rw [Json.canonicalItems_eq_map, List.map_map]
    rfl
  rw [envelopeOf, Json.canonical, Cmp.sortBy_of_sorted]
  · simp only [Json.canonicalMembers, Json.canonical, hroots]
    rfl
  · simp only [Json.canonicalMembers, List.pairwise_cons, List.forall_mem_cons, List.not_mem_nil,
      List.Pairwise.nil, and_true, false_imp_iff, implies_true]
    refine ⟨⟨?_, ?_, ?_, ?_⟩, ⟨?_, ?_, ?_⟩, ⟨?_, ?_⟩, ?_⟩ <;> rfl

theorem ValidEnvelope.canonical {e : EventEnvelope} (h : ValidEnvelope e) :
    ValidEnvelope e.canonical where
  at_ := h.at_
  author := h.author
  type := h.type
  roots := h.roots
  data := by
    obtain ⟨members, hm⟩ := h.data
    rw [EventEnvelope.canonical, hm, Json.canonical]
    exact ⟨_, rfl⟩
  ijson := canonical_envelopeOf e ▸ h.ijson.canonical

section
variable {P : Packages}

theorem checkedElements_eq_ok {elements : List JsValue} {roots : List JsString} :
    checkedElements P elements = .ok roots →
      elements = roots.map .str ∧ ∀ r ∈ roots, isRawCid r = true := by
  induction elements generalizing roots with
  | nil =>
      intro h
      rw [checkedElements] at h
      cases h
      exact ⟨rfl, fun _ h => (by cases h)⟩
  | cons v elements ih =>
      intro h
      rw [checkedElements, bind_eq_ok] at h
      obtain ⟨_, _, h⟩ := h
      rw [bind_eq_ok] at h
      obtain ⟨cid, hcid, h⟩ := h
      rw [bind_eq_ok] at h
      obtain ⟨cids, hcids, h⟩ := h
      cases h
      obtain ⟨rfl, hraw⟩ := checkedString_eq_ok.mp hcid
      obtain ⟨rfl, hraws⟩ := ih hcids
      exact ⟨rfl, List.forall_mem_cons.mpr ⟨hraw, hraws⟩⟩

theorem checkedElements_strs {roots : List JsString} (h : ∀ r ∈ roots, isRawCid r = true) :
    checkedElements P (roots.map .str) = .ok roots := by
  induction roots with
  | nil => rfl
  | cons r roots ih =>
      obtain ⟨hr, hroots⟩ := List.forall_mem_cons.mp h
      have hshown : checkedElements.shownUnless P (.str r) = .ok [] := by
        rw [checkedElements.shownUnless, JsValue.str, JsValue.string?, if_pos (by simpa using hr)]
        rfl
      rw [List.map_cons, checkedElements, hshown, Checked.ok_bind,
        checkedString_eq_ok.mpr ⟨rfl, hr⟩, Checked.ok_bind, ih hroots]
      rfl

theorem checkedRoots_eq_ok {value : JsValue} {roots : List JsString}
    (h : checkedRoots P value = .ok roots) :
    value = .array (roots.map .str) ∧ ∀ r ∈ roots, isRawCid r = true := by
  cases value with
  | array elements =>
      obtain ⟨rfl, hraw⟩ := checkedElements_eq_ok h
      exact ⟨rfl, hraw⟩
  | _ => cases h

/-- A checked value holds a valid envelope. -/
theorem checkedEnvelope_valid {members : List (JsString × JsValue)} {e : EventEnvelope}
    (h : checkedEnvelope P members = .ok e) : ValidEnvelope e := by
  rw [checkedEnvelope, bind_eq_ok] at h
  obtain ⟨at_, hat, h⟩ := h
  rw [bind_eq_ok] at h
  obtain ⟨author, hauthor, h⟩ := h
  rw [bind_eq_ok] at h
  obtain ⟨type, htype, h⟩ := h
  rw [bind_eq_ok] at h
  obtain ⟨roots, hroots, h⟩ := h
  rw [bind_eq_ok] at h
  obtain ⟨data, _, h⟩ := h
  rw [bind_eq_ok] at h
  obtain ⟨j, hplain, h⟩ := h
  cases h
  have hnames : [AT_FIELD, AUTHOR, DATA, ROOTS, TYPE].Nodup := by decide
  obtain ⟨hijson, added, rfl, hadded⟩ := plain_object hplain hnames
  -- each of the five members was admitted as what it is
  cases hadded with | @cons _ a _ _ ha hadded =>
  cases hadded with | @cons _ b _ _ hb hadded =>
  cases hadded with | @cons _ c _ _ hc hadded =>
  cases hadded with | @cons _ d _ _ hd hadded =>
  cases hadded with | @cons _ f _ _ hf hadded =>
  cases hadded
  obtain ⟨ha, _, ha'⟩ := ha
  obtain ⟨hb, _, hb'⟩ := hb
  obtain ⟨hc, _, hc'⟩ := hc
  obtain ⟨hd, _, hd'⟩ := hd
  obtain ⟨hf, _, hf'⟩ := hf
  obtain ⟨result, hresult, _⟩ := admit_object hc'
  have hobject : Json.object [a, b, c, d, f] =
      envelopeOf ⟨at_, author, type, roots, .object result⟩ := by
    rw [envelopeOf]
    congr
    · exact Prod.ext ha (admit_str ha')
    · exact Prod.ext hb (admit_str hb')
    · exact Prod.ext hc hresult
    · exact Prod.ext hd (admit_strs hd')
    · exact Prod.ext hf (admit_str hf')
  rw [hobject] at hijson ⊢
  rw [asEnvelope_envelopeOf]
  exact ⟨(checkedString_eq_ok.mp hat).2, (checkedString_eq_ok.mp hauthor).2,
    by simpa using (checkedString_eq_ok.mp htype).2, (checkedRoots_eq_ok hroots).2, ⟨_, rfl⟩, hijson⟩

theorem ofItems_strs (texts : List JsString) :
    JsValue.ofItems (texts.map jsonStr) = texts.map .str := by
  rw [JsValue.ofItems_eq_map, List.map_map]
  refine List.map_congr_left fun s _ => ?_
  rw [Function.comp_apply, jsonStr, JsValue.ofJson]
  rfl

/-- A value that holds the fields of a valid envelope is checked to it. -/
theorem checkedEnvelope_of_valid {members : List (JsString × JsValue)} {e : EventEnvelope}
    (h : ValidEnvelope e) (hat : JsValue.get members AT_FIELD = .str e.at_)
    (hauthor : JsValue.get members AUTHOR = .str e.author)
    (htype : JsValue.get members TYPE = .str e.type)
    (hroots : JsValue.get members ROOTS = .array (e.roots.map .str))
    (hdata : JsValue.get members DATA = JsValue.ofJson e.data) :
    checkedEnvelope P members = .ok e := by
  obtain ⟨data, hd⟩ := h.data
  have hobject : JsValue.ofJson e.data = .object (JsValue.ofMembers data) := by
    rw [hd, JsValue.ofJson]
  have hvalue : (JsValue.object [(AT_FIELD, .str e.at_), (AUTHOR, .str e.author),
      (DATA, .object (JsValue.ofMembers data)), (ROOTS, .array (e.roots.map .str)),
      (TYPE, .str e.type)]) = JsValue.ofJson (envelopeOf e) := by
    rw [← hobject, envelopeOf, JsValue.ofJson]
    simp only [JsValue.ofMembers]
    rw [JsValue.ofJson, ofItems_strs]
    simp only [jsonStr, JsValue.ofJson, JsValue.str]
  have hplain : plain (JsValue.ofJson (envelopeOf e)) = .ok (envelopeOf e) :=
    plain_of_ok (admit_ofJson h.ijson _)
  rw [checkedEnvelope, checkedString_eq_ok.mpr ⟨hat, h.at_⟩, Checked.ok_bind,
    checkedString_eq_ok.mpr ⟨hauthor, h.author⟩, Checked.ok_bind, checkType,
    checkedString_eq_ok.mpr ⟨htype, by simpa using h.type⟩, Checked.ok_bind, hroots, checkedRoots,
    checkedElements_strs h.roots, Checked.ok_bind, objectMembers_eq_ok.mpr (hdata.trans hobject),
    Checked.ok_bind, hvalue, hplain, Checked.ok_bind, asEnvelope_envelopeOf]
  rfl

end

end Estoc.EventStore
