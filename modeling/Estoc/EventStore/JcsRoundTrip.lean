import Estoc.EventStore.Jcs
import Estoc.Lib.JsonUtf8

/-!
# Writing and reading agree

The two directions refuse the same things. What `plainJson` returns is I-JSON; I-JSON
is admitted as it is; and the visitor, met with the things a value consists of, builds
that value, at every depth at which the value was admitted. With the serializer and the
scanner being what they are, reading the canonical bytes of a value gives its canonical
form.
-/

set_option linter.unusedSectionVars false

namespace Estoc.EventStore

open Json (lit NumberText)
open Utf16 (JsString codePoints isSurrogate)
open Checked (refuse refuse_of_not refuse_bind_eq_ok bind_eq_ok)

/-! ## Defining members -/

theorem define_of_notMem {members : List (JsString × Json)} {name : JsString} {value : Json}
    (h : name ∉ members.map Prod.fst) : define members name value = members ++ [(name, value)] :=
  if_neg h

theorem mem_define {members : List (JsString × Json)} {name : JsString} {value : Json}
    {m : JsString × Json} (h : m ∈ define members name value) : m ∈ members ∨ m = (name, value) := by
  unfold define at h
  split at h
  · obtain ⟨m', hm', heq⟩ := List.mem_map.mp h
    split at heq
    · exact .inr heq.symm
    · exact .inl (heq ▸ hm')
  · simpa using h

theorem nodup_define {members : List (JsString × Json)} (name : JsString) (value : Json)
    (h : (members.map Prod.fst).Nodup) : ((define members name value).map Prod.fst).Nodup := by
  unfold define
  split
  · next hmem =>
      have hnames : (members.map fun m => if m.1 = name then (name, value) else m).map Prod.fst =
          members.map Prod.fst := by
        rw [List.map_map]
        refine List.map_congr_left fun m _ => ?_
        by_cases hm : m.1 = name <;> simp [hm]
      rw [hnames]
      exact h
  · next hmem =>
      rw [List.map_append, List.map_singleton]
      refine List.nodup_append.mpr ⟨h, List.nodup_singleton _, ?_⟩
      intro a ha b hb hab
      rw [hab, List.mem_singleton.mp hb] at ha
      exact hmem ha

/-! ## What is admitted is I-JSON -/

theorem admitText_eq_ok {text path : JsString} :
    admitText text path = .ok () ↔ forbiddenIn text false = none := by
  unfold admitText
  cases forbiddenIn text false with
  | none => simp
  | some fault => simp [throw, throwThe, MonadExceptOf.throw]

theorem admitElements_ijson {elements : List JsValue} {depth : Nat}
    (ih : ∀ v ∈ elements, ∀ path j, admitValue v depth path = .ok j → IJson depth j) :
    ∀ i path items, admitElements elements i depth path = .ok items →
      ∀ v ∈ items, IJson depth v := by
  induction elements with
  | nil =>
      intro i path items h
      rw [admitElements] at h
      cases h
      intro v hv
      cases hv
  | cons e elements ihe =>
      intro i path items h
      rw [admitElements, bind_eq_ok] at h
      obtain ⟨j, hj, h⟩ := h
      rw [bind_eq_ok] at h
      obtain ⟨rest, hrest, h⟩ := h
      cases h
      obtain ⟨hhead, htail⟩ := List.forall_mem_cons.mp ih
      exact List.forall_mem_cons.mpr ⟨hhead _ _ hj, ihe htail _ _ _ hrest⟩

/-- What the members of an object have in common: one definition after the other keeps
it. -/
structure Members (depth : Nat) (members : List (JsString × Json)) : Prop where
  nodup : (members.map Prod.fst).Nodup
  names : ∀ m ∈ members, forbiddenIn m.1 false = none
  values : ∀ m ∈ members, IJson depth m.2

theorem Members.nil (depth : Nat) : Members depth [] :=
  ⟨List.nodup_nil, fun _ h => (by cases h), fun _ h => (by cases h)⟩

theorem Members.define {depth : Nat} {members : List (JsString × Json)} {name : JsString}
    {value : Json} (h : Members depth members) (hname : forbiddenIn name false = none)
    (hvalue : IJson depth value) : Members depth (define members name value) where
  nodup := nodup_define name value h.nodup
  names m hm := by
    rcases mem_define hm with hm | rfl
    · exact h.names m hm
    · exact hname
  values m hm := by
    rcases mem_define hm with hm | rfl
    · exact h.values m hm
    · exact hvalue

theorem admitMembers_ijson {members : List (JsString × JsValue)} {depth : Nat}
    (ih : ∀ m ∈ members, ∀ path j, admitValue m.2 depth path = .ok j → IJson depth j) :
    ∀ admitted path result, Members depth admitted →
      admitMembers members admitted depth path = .ok result → Members depth result := by
  induction members with
  | nil =>
      intro admitted path result hadm h
      rw [admitMembers] at h
      cases h
      exact hadm
  | cons m members ihm =>
      intro admitted path result hadm h
      rw [admitMembers, bind_eq_ok] at h
      obtain ⟨_, hkey, h⟩ := h
      rw [refuse_bind_eq_ok, bind_eq_ok] at h
      obtain ⟨_, value, hvalue, h⟩ := h
      obtain ⟨hhead, htail⟩ := List.forall_mem_cons.mp ih
      exact ihm htail _ _ _ (hadm.define (admitText_eq_ok.mp hkey) (hhead _ _ hvalue)) h

theorem admit_ijson (value : JsValue) :
    ∀ depth path j, admitValue value depth path = .ok j → IJson depth j := by
  induction value using JsValue.ind with
  | undefined => intro depth path j h; rw [admitValue] at h; cases h
  | other typeName => intro depth path j h; rw [admitValue] at h; cases h
  | scalar s =>
      intro depth path j h
      cases s with
      | null => rw [admitValue] at h <;> first | (cases h; exact .null) | simp
      | boolean b => rw [admitValue] at h <;> first | (cases h; exact .boolean b) | simp
      | number x =>
          rw [admitValue, refuse_bind_eq_ok] at h
          obtain ⟨hx, h⟩ := h
          cases h
          exact .number (by simpa using hx)
      | string s =>
          rw [admitValue, bind_eq_ok] at h
          obtain ⟨_, hs, h⟩ := h
          cases h
          exact .string (admitText_eq_ok.mp hs)
  | array elements ih =>
      intro depth path j h
      rw [admitValue, refuse_bind_eq_ok, bind_eq_ok] at h
      obtain ⟨hdepth, items, hitems, h⟩ := h
      cases h
      exact .array (by omega) (admitElements_ijson (fun v hv => ih v hv (depth + 1)) _ _ _ hitems)
  | object members ih =>
      intro depth path j h
      rw [admitValue, refuse_bind_eq_ok, bind_eq_ok] at h
      obtain ⟨hdepth, result, hresult, h⟩ := h
      cases h
      have hm := admitMembers_ijson (fun m hm => ih m hm (depth + 1)) [] path result
        (Members.nil _) hresult
      exact .object (by omega) hm.nodup hm.names hm.values
  | host name json =>
      intro depth path j h
      rw [admitValue, refuse_bind_eq_ok] at h
      cases h.2

/-! ## I-JSON is admitted as it is -/

theorem admitElements_ofItems {items : List Json} {depth : Nat}
    (ih : ∀ v ∈ items, ∀ path, admitValue (JsValue.ofJson v) depth path = .ok v) :
    ∀ i path, admitElements (JsValue.ofItems items) i depth path = .ok items := by
  induction items with
  | nil => intro i path; rfl
  | cons v items ihv =>
      intro i path
      obtain ⟨hhead, htail⟩ := List.forall_mem_cons.mp ih
      rw [JsValue.ofItems, admitElements, hhead, Checked.ok_bind, ihv htail, Checked.ok_bind]
      rfl

theorem isUndefined_ofJson (v : Json) : (JsValue.ofJson v).isUndefined = false := by
  cases v <;> rw [JsValue.ofJson] <;> rfl

theorem admitMembers_ofMembers {members : List (JsString × Json)} {depth : Nat}
    (hnames : ∀ m ∈ members, forbiddenIn m.1 false = none)
    (ih : ∀ m ∈ members, ∀ path, admitValue (JsValue.ofJson m.2) depth path = .ok m.2) :
    ∀ admitted path, ((admitted ++ members).map Prod.fst).Nodup →
      admitMembers (JsValue.ofMembers members) admitted depth path = .ok (admitted ++ members) := by
  induction members with
  | nil =>
      intro admitted path _
      rw [List.append_nil]
      rfl
  | cons m members ihm =>
      intro admitted path hnodup
      obtain ⟨hname, hnames⟩ := List.forall_mem_cons.mp hnames
      obtain ⟨hhead, htail⟩ := List.forall_mem_cons.mp ih
      have hnew : m.1 ∉ admitted.map Prod.fst := by
        intro hmem
        rw [List.map_append, List.map_cons] at hnodup
        exact (List.nodup_append.mp hnodup).2.2 _ hmem _ List.mem_cons_self rfl
      have happ : admitted ++ m :: members = admitted ++ [(m.1, m.2)] ++ members := by simp
      rw [JsValue.ofMembers, admitMembers, admitText_eq_ok.mpr hname, Checked.ok_bind,
        refuse_of_not (by rw [isUndefined_ofJson]; exact Bool.false_ne_true), Checked.ok_bind,
        hhead, Checked.ok_bind, define_of_notMem hnew, happ]
      exact ihm hnames htail _ _ (happ ▸ hnodup)

theorem admit_ofJson {depth : Nat} {v : Json} (h : IJson depth v) :
    ∀ path, admitValue (JsValue.ofJson v) depth path = .ok v := by
  induction h with
  | null => intro path; rfl
  | boolean b => intro path; rfl
  | number hx =>
      intro path
      rw [JsValue.ofJson, admitValue, refuse_of_not (by simp [hx])]
      rfl
  | string hs =>
      intro path
      rw [JsValue.ofJson, admitValue, admitText_eq_ok.mpr hs]
      rfl
  | array hdepth _ ih =>
      intro path
      rw [JsValue.ofJson, admitValue, refuse_of_not (by omega), Checked.ok_bind,
        admitElements_ofItems ih, Checked.ok_bind]
      rfl
  | object hdepth hnodup hnames _ ih =>
      intro path
      rw [JsValue.ofJson, admitValue, refuse_of_not (by omega), Checked.ok_bind,
        admitMembers_ofMembers hnames ih [] path hnodup, Checked.ok_bind]
      rfl

/-! ## The canonical form -/

theorem forbiddenIn_eq_none {s : JsString} {noncharacters : Bool} :
    forbiddenIn s noncharacters = none ↔
      ∀ code ∈ codePoints s, isForbidden noncharacters code = false := by
  simp [forbiddenIn]

theorem forbiddenIn_of_strict {s : JsString} (noncharacters : Bool)
    (h : forbiddenIn s false = none) : forbiddenIn s noncharacters = none := by
  rw [forbiddenIn_eq_none] at h ⊢
  intro code hcode
  have hcode := h code hcode
  simp only [isForbidden, Bool.not_false, Bool.true_and, Bool.or_eq_false_iff] at hcode
  simp [isForbidden, hcode.1, hcode.2]

theorem loneSurrogate_of_admitted {s : JsString} {noncharacters : Bool}
    (h : forbiddenIn s noncharacters = none) : Utf16.loneSurrogate s = false := by
  refine Utf16.loneSurrogate_of_codePoints fun code hcode => ?_
  have hcode := forbiddenIn_eq_none.mp h code hcode
  rw [isForbidden, Bool.or_eq_false_iff] at hcode
  exact hcode.1

theorem IJson.paired {depth : Nat} {v : Json} (h : IJson depth v) : Json.Paired v := by
  induction h with
  | null => exact .null
  | boolean b => exact .boolean b
  | number hx => exact .number hx
  | string hs => exact .string (loneSurrogate_of_admitted hs)
  | array _ _ ih => exact .array ih
  | object _ _ hnames _ ih =>
      exact .object (fun m hm => loneSurrogate_of_admitted (hnames m hm)) ih

theorem IJson.readable {depth : Nat} {v : Json} (h : IJson depth v) :
    Json.Readable v.canonical := by
  induction h with
  | null => exact .scalar trivial
  | boolean b => exact .scalar trivial
  | @number _ x hx =>
      refine .scalar ⟨Binary64.isFinite_unsigned hx, ?_⟩
      rw [Binary64.unsigned]
      split
      · decide
      · assumption
  | string hs => exact .scalar trivial
  | array _ _ ih =>
      rw [Json.canonical, Json.canonicalItems_eq_map]
      refine .array fun v hv => ?_
      obtain ⟨u, hu, rfl⟩ := List.mem_map.mp hv
      exact ih u hu
  | object _ _ _ _ ih =>
      rw [Json.canonical, Json.canonicalMembers_eq_map]
      refine .object fun m hm => ?_
      obtain ⟨m', hm', rfl⟩ := List.mem_map.mp (Cmp.mem_sortBy.mp hm)
      exact ih m' hm'

theorem IJson.canonical {depth : Nat} {v : Json} (h : IJson depth v) : IJson depth v.canonical := by
  induction h with
  | null => exact .null
  | boolean b => exact .boolean b
  | number hx => exact .number (Binary64.isFinite_unsigned hx)
  | string hs => exact .string hs
  | array hdepth _ ih =>
      rw [Json.canonical, Json.canonicalItems_eq_map]
      refine .array hdepth fun v hv => ?_
      obtain ⟨u, hu, rfl⟩ := List.mem_map.mp hv
      exact ih u hu
  | @object _ members hdepth hnodup hnames _ ih =>
      have hperm := @Cmp.sortBy_perm _ Json.compareNames (members.map Json.canonicalMember)
      have hmap : (members.map Json.canonicalMember).map Prod.fst = members.map Prod.fst := by
        rw [List.map_map]
        rfl
      rw [Json.canonical, Json.canonicalMembers_eq_map]
      refine .object hdepth ?_ ?_ ?_
      · rw [(hperm.map Prod.fst).nodup_iff, hmap]
        exact hnodup
      · intro m hm
        obtain ⟨m', hm', rfl⟩ := List.mem_map.mp (Cmp.mem_sortBy.mp hm)
        exact hnames m' hm'
      · intro m hm
        obtain ⟨m', hm', rfl⟩ := List.mem_map.mp (Cmp.mem_sortBy.mp hm)
        exact ih m' hm'

/-! ## The visitor builds the value -/

section
variable {text : JsString} {noncharacters : Bool}

/-- The visitor was called for these things. -/
def Meets (vs : List Visit) (ts : List Token) : Prop := vs.map Visit.token = ts.map some

theorem Meets.cons {vs : List Visit} {t : Token} {ts : List Token} (h : Meets vs (t :: ts)) :
    ∃ v rest, vs = v :: rest ∧ v.token = some t ∧ Meets rest ts := by
  obtain ⟨v, rest, rfl, hv, hrest⟩ := List.map_eq_cons_iff.mp (h.trans List.map_cons)
  exact ⟨v, rest, rfl, hv, hrest⟩

theorem Meets.append {vs : List Visit} {ts us : List Token} (h : Meets vs (ts ++ us)) :
    ∃ ws xs, vs = ws ++ xs ∧ Meets ws ts ∧ Meets xs us := by
  obtain ⟨ws, xs, rfl, hws, hxs⟩ := List.map_eq_append_iff.mp (h.trans List.map_append)
  exact ⟨ws, xs, rfl, hws, hxs⟩

theorem onVisit_scalar {depth : Nat} {s : Scalar} (h : IJson depth (.scalar s)) {v : Visit}
    (hv : v.token = some (.literal s)) (p : Parse) :
    onVisit text noncharacters p v = .ok (p.place (.scalar s)) := by
  cases v <;> cases hv
  cases h with
  | null => rfl
  | boolean b => rfl
  | number hx =>
      rw [onVisit, refuse_of_not (by simp [hx])]
      rfl
  | string hs =>
      rw [onVisit, forbiddenIn_of_strict noncharacters hs]
      rfl

theorem onVisit_objectEnd {v : Visit} (hv : v.token = some .objectEnd) (p : Parse) :
    onVisit text noncharacters p v = .ok p.finish := by
  cases v <;> cases hv
  rfl

theorem onVisit_arrayEnd {v : Visit} (hv : v.token = some .arrayEnd) (p : Parse) :
    onVisit text noncharacters p v = .ok p.finish := by
  cases v <;> cases hv
  rfl

theorem onVisit_arrayBegin {v : Visit} (hv : v.token = some .arrayBegin) {p : Parse}
    (hp : p.opened.length < MAX_DEPTH) :
    onVisit text noncharacters p v = .ok { p with opened := .array [] :: p.opened } := by
  cases v <;> cases hv
  rw [onVisit, beginAt, refuse_of_not (by omega)]
  rfl

theorem onVisit_objectBegin {v : Visit} (hv : v.token = some .objectBegin) {p : Parse}
    (hp : p.opened.length < MAX_DEPTH) :
    onVisit text noncharacters p v = .ok { p with opened := .object [] none :: p.opened } := by
  cases v <;> cases hv
  rw [onVisit, beginAt, refuse_of_not (by omega)]
  rfl

theorem onVisit_property {v : Visit} {name : JsString} (hv : v.token = some (.property name))
    (hname : forbiddenIn name false = none) {p : Parse} {members : List (JsString × Json)}
    (hnew : name ∉ members.map Prod.fst) (key : Option JsString) :
    onVisit text noncharacters { p with opened := .object members key :: p.opened } v =
      .ok { p with opened := .object members (some name) :: p.opened } := by
  cases v <;> cases hv
  rw [onVisit, forbiddenIn_of_strict noncharacters hname]
  simp only [if_neg hnew, Checked.pure_eq_ok]

/-- Met with the things of a value, the visitor puts the value in its place. -/
def Builds (text : JsString) (noncharacters : Bool) (depth : Nat) (v : Json) : Prop :=
  ∀ (p : Parse) (vs ws : List Visit), p.opened.length = depth → Meets vs (Json.tokens v) →
    onVisits text noncharacters p (vs ++ ws) = onVisits text noncharacters (p.place v) ws

theorem builds_scalar {depth : Nat} {s : Scalar} (h : IJson depth (.scalar s)) :
    Builds text noncharacters depth (.scalar s) := by
  intro p vs ws _ hvs
  obtain ⟨v, rest, rfl, hv, hrest⟩ := Meets.cons hvs
  rw [List.map_eq_nil_iff.mp hrest, List.singleton_append, onVisits, onVisit_scalar h hv,
    Checked.ok_bind]

theorem builds_items {depth : Nat} {items : List Json}
    (ih : ∀ v ∈ items, Builds text noncharacters (depth + 1) v) :
    ∀ (p : Parse) (done : List Json) (vs ws : List Visit), p.opened.length = depth →
      Meets vs (Json.tokensItems items) →
      onVisits text noncharacters { p with opened := .array done :: p.opened } (vs ++ ws) =
        onVisits text noncharacters (p.place (.array (done ++ items))) ws := by
  induction items with
  | nil =>
      intro p done vs ws _ hvs
      obtain ⟨v, rest, rfl, hv, hrest⟩ := hvs.cons
      rw [List.map_eq_nil_iff.mp hrest, List.append_nil, List.singleton_append, onVisits,
        onVisit_arrayEnd hv]
      rfl
  | cons item items ihi =>
      intro p done vs ws hp hvs
      obtain ⟨hhead, htail⟩ := List.forall_mem_cons.mp ih
      obtain ⟨vs, rest, rfl, hvs, hrest⟩ := hvs.append
      rw [List.append_assoc, hhead _ _ _ (by simp [hp]) hvs]
      have happ : done ++ item :: items = done ++ [item] ++ items := by simp
      rw [happ]
      exact ihi htail p (done ++ [item]) rest ws hp hrest

theorem builds_members {depth : Nat} {members : List (JsString × Json)}
    (hnames : ∀ m ∈ members, forbiddenIn m.1 false = none)
    (ih : ∀ m ∈ members, Builds text noncharacters (depth + 1) m.2) :
    ∀ (p : Parse) (done : List (JsString × Json)) (key : Option JsString) (vs ws : List Visit),
      p.opened.length = depth → ((done ++ members).map Prod.fst).Nodup →
      Meets vs (Json.tokensMembers members) →
      onVisits text noncharacters { p with opened := .object done key :: p.opened } (vs ++ ws) =
        onVisits text noncharacters (p.place (.object (done ++ members))) ws := by
  induction members with
  | nil =>
      intro p done key vs ws _ _ hvs
      obtain ⟨v, rest, rfl, hv, hrest⟩ := hvs.cons
      rw [List.map_eq_nil_iff.mp hrest, List.append_nil, List.singleton_append, onVisits,
        onVisit_objectEnd hv]
      rfl
  | cons m members ihm =>
      intro p done key vs ws hp hnodup hvs
      obtain ⟨name, value⟩ := m
      obtain ⟨hname, hnames⟩ := List.forall_mem_cons.mp hnames
      obtain ⟨hhead, htail⟩ := List.forall_mem_cons.mp ih
      have happ : done ++ (name, value) :: members = done ++ [(name, value)] ++ members := by simp
      have hnew : name ∉ done.map Prod.fst := by
        intro hmem
        rw [List.map_append, List.map_cons] at hnodup
        exact (List.nodup_append.mp hnodup).2.2 _ hmem _ List.mem_cons_self rfl
      obtain ⟨v, rest, rfl, hv, hrest⟩ := Meets.cons hvs
      obtain ⟨vs, rest, rfl, hvs, hrest⟩ := hrest.append
      rw [List.cons_append, onVisits, onVisit_property hv hname hnew, Checked.ok_bind,
        List.append_assoc, hhead _ _ _ (by simp [hp]) hvs]
      have hplace : Parse.place { p with opened := .object done (some name) :: p.opened } value =
          { p with opened := .object (done ++ [(name, value)]) (some name) :: p.opened } := by
        rw [Parse.place]
        simp only [Option.getD_some, define_of_notMem hnew]
      rw [hplace, happ]
      exact ihm hnames htail p _ _ rest ws hp (happ ▸ hnodup) hrest

theorem IJson.builds {depth : Nat} {v : Json} (h : IJson depth v) :
    Builds text noncharacters depth v := by
  induction h with
  | array hdepth _ ih =>
      intro p vs ws hp hvs
      obtain ⟨v, rest, rfl, hv, hrest⟩ := Meets.cons hvs
      rw [List.cons_append, onVisits, onVisit_arrayBegin hv (by omega), Checked.ok_bind]
      exact builds_items ih p [] rest ws hp hrest
  | object hdepth hnodup hnames _ ih =>
      intro p vs ws hp hvs
      obtain ⟨v, rest, rfl, hv, hrest⟩ := Meets.cons hvs
      rw [List.cons_append, onVisits, onVisit_objectBegin hv (by omega), Checked.ok_bind]
      exact builds_members hnames ih p [] none rest ws hp hnodup hrest
  | null => exact builds_scalar .null
  | boolean b => exact builds_scalar (.boolean b)
  | number hx => exact builds_scalar (.number hx)
  | string hs => exact builds_scalar (.string hs)

end

/-- A value is I-JSON where its canonical form is. -/
theorem IJson.of_canonical {v : Json} : ∀ {depth : Nat}, IJson depth v.canonical → IJson depth v := by
  induction v using Json.ind with
  | scalar s =>
      intro depth h
      cases s with
      | null => exact .null
      | boolean b => exact .boolean b
      | string s => exact h
      | number x =>
          rw [Json.canonical, Json.canonicalScalar] at h
          cases h with
          | number hx =>
          refine .number ?_
          rw [Binary64.unsigned] at hx
          split at hx
          · next hz => rw [hz]; rfl
          · exact hx
  | array items ih =>
      intro depth h
      rw [Json.canonical, Json.canonicalItems_eq_map] at h
      cases h with
      | array hdepth hall =>
      exact .array hdepth fun v hv => ih v hv (hall _ (List.mem_map_of_mem hv))
  | object members ih =>
      intro depth h
      rw [Json.canonical, Json.canonicalMembers_eq_map] at h
      have hperm := @Cmp.sortBy_perm _ Json.compareNames (members.map Json.canonicalMember)
      have hnames := hperm.map Prod.fst
      rw [List.map_map] at hnames
      cases h with
      | object hdepth hnodup hname hall =>
      have hmem : ∀ m ∈ members, Json.canonicalMember m ∈
          Cmp.sortBy Json.compareNames (members.map Json.canonicalMember) := fun m hm =>
        hperm.mem_iff.mpr (List.mem_map_of_mem hm)
      exact .object hdepth (hnames.nodup_iff.mp hnodup) (fun m hm => hname (Json.canonicalMember m) (hmem m hm))
        fun m hm => ih m hm (hall (Json.canonicalMember m) (hmem m hm))

/-! ## The canonical bytes -/

section
variable (P : Packages)

/-- The canonical bytes of an I-JSON value. -/
def canonicalBytes (v : Json) : List UInt8 := Utf16.encodeUtf8 (Json.canonicalText P.numbers v)

theorem canonicalBytes_canonical (v : Json) :
    canonicalBytes P v.canonical = canonicalBytes P v := by
  rw [canonicalBytes, Json.canonicalText, Json.canonical_canonical, canonicalBytes,
    Json.canonicalText]

variable {P}

theorem canonicalize_of_plain {value : JsValue} {v : Json} (h : plainJson value = .ok v) :
    canonicalize P value = .ok (canonicalBytes P v) := by
  rw [canonicalize, canonicalText, h, Checked.ok_bind, Checked.pure_eq_ok, Checked.ok_bind,
    P.serialize_eq v (admit_ijson value _ _ _ h)]
  rfl

theorem canonicalize_ofJson {v : Json} (h : IJson 0 v) :
    canonicalize P (JsValue.ofJson v) = .ok (canonicalBytes P v) :=
  canonicalize_of_plain (admit_ofJson h _)

/-- Reading the canonical bytes of a value gives its canonical form. -/
theorem parseStrict_canonicalBytes {v : Json} (h : IJson 0 v) (noncharacters : Bool) :
    parseStrict P (canonicalBytes P v) noncharacters = .ok (some v.canonical) := by
  have hvisit := P.visit_tokens _ _ (Json.readText_write (N := P.numbers) h.readable)
  have hpaired := Json.loneSurrogate_write (N := P.numbers) h.canonical.paired
  have hbuild := @IJson.builds (Json.write P.numbers v.canonical) noncharacters 0 v.canonical
    h.canonical .start _ [] rfl hvisit
  rw [List.append_nil] at hbuild
  rw [parseStrict, canonicalBytes, Json.canonicalText, Utf16.decodeUtf8_encodeUtf8 hpaired]
  simp only [parseText, hbuild]
  rfl

end

end Estoc.EventStore
