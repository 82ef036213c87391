import Estoc.EventStore.Agreement
import Estoc.Lib.JsonSame

/-!
# What strict JSON lets through

The two directions check for themselves: the canonicalizer by its own recursion, the
reader on the containers it has open. `Allowed` is what both let through, said once about
the value: names that are distinct, a nesting within the bound, and in every name and
every literal nothing forbidden. The canonicalizer accepts exactly the values that are
allowed, and the reader exactly the texts that consist of what such a value consists of.
-/

set_option linter.unusedSectionVars false

namespace Estoc.EventStore

open Json (lit Distinct Same nesting)
open Utf16 (JsString)

/-- What either direction lets pass of what a text consists of. -/
def passes (noncharacters : Bool) : Token → Prop
  | .literal (.string s) => forbiddenIn s noncharacters = none
  | .literal (.number x) => x.isFinite = true
  | .property name => forbiddenIn name noncharacters = none
  | _ => True

/-- What is let through where `depth` containers are open. -/
structure Allowed (noncharacters : Bool) (depth : Nat) (v : Json) : Prop where
  distinct : v.Distinct
  nests : depth + v.nesting ≤ MAX_DEPTH
  passes : ∀ t ∈ Json.tokens v, passes noncharacters t

theorem mem_tokensItems {t : Token} {items : List Json} :
    t ∈ Json.tokensItems items ↔ t = .arrayEnd ∨ ∃ v ∈ items, t ∈ Json.tokens v := by
  induction items with
  | nil => simp [Json.tokensItems]
  | cons v vs ih =>
      rw [Json.tokensItems, List.mem_append, ih, List.exists_mem_cons_iff]
      exact or_left_comm

theorem mem_tokensMembers {t : Token} {members : List (JsString × Json)} :
    t ∈ Json.tokensMembers members ↔
      t = .objectEnd ∨ ∃ m ∈ members, t = .property m.1 ∨ t ∈ Json.tokens m.2 := by
  induction members with
  | nil => simp [Json.tokensMembers]
  | cons m ms ih =>
      rw [Json.tokensMembers, List.mem_cons, List.mem_append, ih, List.exists_mem_cons_iff]
      constructor
      · rintro (h | h | h | h)
        · exact .inr (.inl (.inl h))
        · exact .inr (.inl (.inr h))
        · exact .inl h
        · exact .inr (.inr h)
      · rintro (h | (h | h) | h)
        · exact .inr (.inr (.inl h))
        · exact .inl h
        · exact .inr (.inl h)
        · exact .inr (.inr (.inr h))

section
variable {noncharacters : Bool} {depth : Nat}

theorem allowed_scalar {s : Scalar} :
    Allowed noncharacters depth (.scalar s) ↔
      depth ≤ MAX_DEPTH ∧ passes noncharacters (.literal s) := by
  constructor
  · intro h
    exact ⟨h.nests, h.passes _ List.mem_cons_self⟩
  · intro h
    refine ⟨.scalar s, h.1, fun t ht => ?_⟩
    rw [List.mem_singleton.mp ht]
    exact h.2

theorem allowed_array {items : List Json} :
    Allowed noncharacters depth (.array items) ↔
      depth < MAX_DEPTH ∧ ∀ v ∈ items, Allowed noncharacters (depth + 1) v := by
  constructor
  · intro h
    have hnests : depth + (Json.nestingItems items + 1) ≤ MAX_DEPTH := h.nests
    have hitems := (@Json.nestingItems_le items _).mp (Nat.le_refl _)
    refine ⟨by omega, fun v hv => ⟨?_, ?_, fun t ht => ?_⟩⟩
    · cases h.distinct with
      | array hall => exact hall v hv
    · have := hitems v hv
      omega
    · exact h.passes t (List.mem_cons_of_mem _ (mem_tokensItems.mpr (.inr ⟨v, hv, ht⟩)))
  · intro h
    refine ⟨.array fun v hv => (h.2 v hv).distinct, ?_, fun t ht => ?_⟩
    · have hitems : Json.nestingItems items ≤ MAX_DEPTH - (depth + 1) :=
        Json.nestingItems_le.mpr fun v hv => by have := (h.2 v hv).nests; omega
      have hlt := h.1
      show depth + (Json.nestingItems items + 1) ≤ MAX_DEPTH
      omega
    · rcases List.mem_cons.mp ht with rfl | ht
      · trivial
      · rcases mem_tokensItems.mp ht with rfl | ⟨v, hv, ht⟩
        · trivial
        · exact (h.2 v hv).passes t ht

theorem allowed_object {members : List (JsString × Json)} :
    Allowed noncharacters depth (.object members) ↔
      depth < MAX_DEPTH ∧ (members.map Prod.fst).Nodup ∧
        (∀ m ∈ members, forbiddenIn m.1 noncharacters = none) ∧
        ∀ m ∈ members, Allowed noncharacters (depth + 1) m.2 := by
  constructor
  · intro h
    have hnests : depth + (Json.nestingMembers members + 1) ≤ MAX_DEPTH := h.nests
    have hmembers := (@Json.nestingMembers_le members _).mp (Nat.le_refl _)
    have hpasses : ∀ m ∈ members, ∀ t, t = .property m.1 ∨ t ∈ Json.tokens m.2 →
        passes noncharacters t := fun m hm t ht =>
      h.passes t (List.mem_cons_of_mem _ (mem_tokensMembers.mpr (.inr ⟨m, hm, ht⟩)))
    cases h.distinct with
    | object hnodup hall =>
        refine ⟨by omega, hnodup, fun m hm => hpasses m hm _ (.inl rfl), fun m hm => ?_⟩
        refine ⟨hall m hm, ?_, fun t ht => hpasses m hm t (.inr ht)⟩
        have := hmembers m hm
        omega
  · intro h
    obtain ⟨hlt, hnodup, hnames, hvalues⟩ := h
    refine ⟨.object hnodup fun m hm => (hvalues m hm).distinct, ?_, fun t ht => ?_⟩
    · have hmembers : Json.nestingMembers members ≤ MAX_DEPTH - (depth + 1) :=
        Json.nestingMembers_le.mpr fun m hm => by have := (hvalues m hm).nests; omega
      show depth + (Json.nestingMembers members + 1) ≤ MAX_DEPTH
      omega
    · rcases List.mem_cons.mp ht with rfl | ht
      · trivial
      · rcases mem_tokensMembers.mp ht with rfl | ⟨m, hm, rfl | ht⟩
        · trivial
        · exact hnames m hm
        · exact (hvalues m hm).passes t ht

end

/-- What the canonicalizer's copy is made of is what is allowed. -/
theorem ijson_iff_allowed {v : Json} :
    ∀ {depth : Nat}, depth ≤ MAX_DEPTH → (IJson depth v ↔ Allowed false depth v) := by
  induction v using Json.ind with
  | scalar s =>
      intro depth hdepth
      rw [allowed_scalar]
      constructor
      · intro h
        cases h with
        | null => exact ⟨hdepth, trivial⟩
        | boolean b => exact ⟨hdepth, trivial⟩
        | number hx => exact ⟨hdepth, hx⟩
        | string hs => exact ⟨hdepth, hs⟩
      · intro h
        cases s with
        | null => exact .null
        | boolean b => exact .boolean b
        | number x => exact .number h.2
        | string s => exact .string h.2
  | array items ih =>
      intro depth _
      rw [allowed_array]
      constructor
      · intro h
        cases h with
        | array hlt hall => exact ⟨hlt, fun v hv => (ih v hv hlt).mp (hall v hv)⟩
      · intro h
        exact .array h.1 fun v hv => (ih v hv h.1).mpr (h.2 v hv)
  | object members ih =>
      intro depth _
      rw [allowed_object]
      constructor
      · intro h
        cases h with
        | object hlt hnodup hnames hall =>
            exact ⟨hlt, hnodup, hnames, fun m hm => (ih m hm hlt).mp (hall m hm)⟩
      · intro h
        obtain ⟨hlt, hnodup, hnames, hall⟩ := h
        exact .object hlt hnodup hnames fun m hm => (ih m hm hlt).mpr (hall m hm)

/-! ## What the reader lets through -/

section
variable {text : JsString} {noncharacters : Bool}

/-- Where the visitor comes through the things of a value, the value is allowed, and it
is put in its place. -/
def Visited (text : JsString) (noncharacters : Bool) (depth : Nat) (v : Json) : Prop :=
  ∀ (p q : Parse) (vs ws : List Visit), p.opened.length = depth → Meets vs (Json.tokens v) →
    onVisits text noncharacters p (vs ++ ws) = .ok q →
      (depth ≤ MAX_DEPTH → Allowed noncharacters depth v) ∧
        onVisits text noncharacters (p.place v) ws = .ok q

theorem beginAt_eq_ok {p q : Parse} {offset : Nat} {o : Open} (h : beginAt p offset o = .ok q) :
    p.opened.length < MAX_DEPTH ∧ q = { p with opened := o :: p.opened } := by
  obtain ⟨hlt, hq⟩ := Checked.refuse_bind_eq_ok.mp h
  exact ⟨by omega, (Except.ok.inj hq).symm⟩

theorem onVisit_scalar_eq_ok {s : Scalar} {v : Visit} (hv : v.token = some (.literal s))
    {p q : Parse} (h : onVisit text noncharacters p v = .ok q) :
    passes noncharacters (.literal s) ∧ q = p.place (.scalar s) := by
  cases v <;> cases hv
  cases s with
  | null => cases h; exact ⟨trivial, rfl⟩
  | boolean b => cases h; exact ⟨trivial, rfl⟩
  | number x =>
      obtain ⟨hx, hq⟩ := Checked.refuse_bind_eq_ok.mp h
      refine ⟨?_, (Except.ok.inj hq).symm⟩
      show x.isFinite = true
      simpa using hx
  | string s =>
      rw [onVisit] at h
      split at h
      · cases h
      · next hs => cases h; exact ⟨hs, rfl⟩

theorem onVisit_property_eq_ok {v : Visit} {name : JsString}
    (hv : v.token = some (.property name)) {p q : Parse} {members : List (JsString × Json)}
    {key : Option JsString}
    (h : onVisit text noncharacters { p with opened := .object members key :: p.opened } v =
      .ok q) :
    forbiddenIn name noncharacters = none ∧ name ∉ members.map Prod.fst ∧
      q = { p with opened := .object members (some name) :: p.opened } := by
  cases v <;> cases hv
  rw [onVisit] at h
  split at h
  · cases h
  · next hname =>
    simp only at h
    split at h
    · cases h
    · next hnew => cases h; exact ⟨hname, hnew, rfl⟩

theorem visited_scalar {depth : Nat} (s : Scalar) :
    Visited text noncharacters depth (.scalar s) := by
  intro p q vs ws _ hvs h
  obtain ⟨v, rest, rfl, hv, hrest⟩ := hvs.cons
  rw [List.map_eq_nil_iff.mp hrest, List.singleton_append, onVisits, Checked.bind_eq_ok] at h
  obtain ⟨r, hr, h⟩ := h
  obtain ⟨hpass, rfl⟩ := onVisit_scalar_eq_ok hv hr
  exact ⟨fun hdepth => allowed_scalar.mpr ⟨hdepth, hpass⟩, h⟩

theorem visited_items {depth : Nat} {items : List Json} (hdepth : depth < MAX_DEPTH)
    (ih : ∀ v ∈ items, Visited text noncharacters (depth + 1) v) :
    ∀ (p q : Parse) (done : List Json) (vs ws : List Visit), p.opened.length = depth →
      Meets vs (Json.tokensItems items) →
      onVisits text noncharacters { p with opened := .array done :: p.opened } (vs ++ ws) =
        .ok q →
      (∀ v ∈ items, Allowed noncharacters (depth + 1) v) ∧
        onVisits text noncharacters (p.place (.array (done ++ items))) ws = .ok q := by
  induction items with
  | nil =>
      intro p q done vs ws _ hvs h
      obtain ⟨v, rest, rfl, hv, hrest⟩ := hvs.cons
      rw [List.map_eq_nil_iff.mp hrest, List.singleton_append, onVisits, onVisit_arrayEnd hv,
        Checked.ok_bind] at h
      rw [List.append_nil]
      exact ⟨fun _ hv => (by cases hv), h⟩
  | cons item items ihi =>
      intro p q done vs ws hp hvs h
      obtain ⟨hhead, htail⟩ := List.forall_mem_cons.mp ih
      obtain ⟨vs, rest, rfl, hvs, hrest⟩ := hvs.append
      rw [List.append_assoc] at h
      obtain ⟨hitem, h⟩ := hhead _ _ _ _ (by simp [hp]) hvs h
      obtain ⟨hitems, h⟩ := ihi htail p q (done ++ [item]) rest ws hp hrest h
      rw [List.append_assoc, List.singleton_append] at h
      exact ⟨List.forall_mem_cons.mpr ⟨hitem hdepth, hitems⟩, h⟩

/-- What the reader has seen of an object's members. -/
structure MembersAllowed (noncharacters : Bool) (depth : Nat)
    (members : List (JsString × Json)) : Prop where
  names : ∀ m ∈ members, forbiddenIn m.1 noncharacters = none
  values : ∀ m ∈ members, Allowed noncharacters depth m.2

theorem visited_members {depth : Nat} {members : List (JsString × Json)}
    (hdepth : depth < MAX_DEPTH)
    (ih : ∀ m ∈ members, Visited text noncharacters (depth + 1) m.2) :
    ∀ (p q : Parse) (done : List (JsString × Json)) (key : Option JsString)
      (vs ws : List Visit), p.opened.length = depth → (done.map Prod.fst).Nodup →
      Meets vs (Json.tokensMembers members) →
      onVisits text noncharacters { p with opened := .object done key :: p.opened } (vs ++ ws) =
        .ok q →
      MembersAllowed noncharacters (depth + 1) members ∧
        ((done ++ members).map Prod.fst).Nodup ∧
        onVisits text noncharacters (p.place (.object (done ++ members))) ws = .ok q := by
  induction members with
  | nil =>
      intro p q done key vs ws _ hnodup hvs h
      obtain ⟨v, rest, rfl, hv, hrest⟩ := hvs.cons
      rw [List.map_eq_nil_iff.mp hrest, List.singleton_append, onVisits, onVisit_objectEnd hv,
        Checked.ok_bind] at h
      rw [List.append_nil]
      exact ⟨⟨fun _ hm => (by cases hm), fun _ hm => (by cases hm)⟩, hnodup, h⟩
  | cons m members ihm =>
      intro p q done key vs ws hp hnodup hvs h
      obtain ⟨name, value⟩ := m
      obtain ⟨hhead, htail⟩ := List.forall_mem_cons.mp ih
      obtain ⟨v, rest, rfl, hv, hrest⟩ := Meets.cons hvs
      obtain ⟨vs, rest, rfl, hvs, hrest⟩ := hrest.append
      rw [List.cons_append, onVisits, Checked.bind_eq_ok] at h
      obtain ⟨r, hr, h⟩ := h
      obtain ⟨hname, hnew, rfl⟩ := onVisit_property_eq_ok hv hr
      rw [List.append_assoc] at h
      obtain ⟨hvalue, h⟩ := hhead _ _ _ _ (by simp [hp]) hvs h
      have hplace : Parse.place { p with opened := .object done (some name) :: p.opened } value =
          { p with opened := .object (done ++ [(name, value)]) (some name) :: p.opened } := by
        rw [Parse.place]
        simp only [Option.getD_some, define_of_notMem hnew]
      have hdone : ((done ++ [(name, value)]).map Prod.fst).Nodup := by
        rw [List.map_append]
        refine List.nodup_append.mpr ⟨hnodup, List.nodup_singleton _, ?_⟩
        intro a ha b hb hab
        rw [hab, List.mem_singleton.mp hb] at ha
        exact hnew ha
      rw [hplace] at h
      obtain ⟨hmembers, hall, h⟩ := ihm htail p q _ _ rest ws hp hdone hrest h
      rw [List.append_assoc, List.singleton_append] at hall h
      exact ⟨⟨List.forall_mem_cons.mpr ⟨hname, hmembers.names⟩,
        List.forall_mem_cons.mpr ⟨hvalue hdepth, hmembers.values⟩⟩, hall, h⟩

theorem visited (v : Json) : ∀ depth, Visited text noncharacters depth v := by
  induction v using Json.ind with
  | scalar s => intro depth; exact visited_scalar s
  | array items ih =>
      intro depth p q vs ws hp hvs h
      obtain ⟨v, rest, rfl, hv, hrest⟩ := hvs.cons
      rw [List.cons_append, onVisits, Checked.bind_eq_ok] at h
      obtain ⟨r, hr, h⟩ := h
      cases v <;> cases hv
      obtain ⟨hlt, rfl⟩ := beginAt_eq_ok hr
      obtain ⟨hitems, h⟩ := visited_items (hp ▸ hlt) (fun v hv => ih v hv _) p q [] rest ws hp
        hrest h
      exact ⟨fun _ => allowed_array.mpr ⟨hp ▸ hlt, hitems⟩, h⟩
  | object members ih =>
      intro depth p q vs ws hp hvs h
      obtain ⟨v, rest, rfl, hv, hrest⟩ := hvs.cons
      rw [List.cons_append, onVisits, Checked.bind_eq_ok] at h
      obtain ⟨r, hr, h⟩ := h
      cases v <;> cases hv
      obtain ⟨hlt, rfl⟩ := beginAt_eq_ok hr
      obtain ⟨hmembers, hnodup, h⟩ := visited_members (hp ▸ hlt) (fun m hm => ih m hm _) p q []
        none rest ws hp List.nodup_nil hrest h
      exact ⟨fun _ => allowed_object.mpr ⟨hp ▸ hlt, hnodup, hmembers.names, hmembers.values⟩, h⟩

/-- An error the scanner reports refuses the text. -/
theorem onVisits_error {vs : List Visit} (h : none ∈ vs.map Visit.token) (p q : Parse) :
    onVisits text noncharacters p vs ≠ .ok q := by
  induction vs generalizing p with
  | nil => cases h
  | cons v vs ih =>
      intro hq
      obtain ⟨r, hr, hq⟩ := Checked.bind_eq_ok.mp hq
      rcases List.mem_cons.mp h with hv | hvs
      · cases v <;> cases hv
        cases hr
      · exact ih hvs r hq

end

/-! ## Texts -/

section
variable {P : Packages} {text : JsString} {noncharacters : Bool}

/-- Only what is allowed comes through the visitor, and it is what comes back. -/
theorem parseText_eq_ok {v : Json} (hread : Json.readText P.numbers text = some (Json.tokens v))
    {w : Option Json} (h : parseText P text noncharacters = .ok w) :
    Allowed noncharacters 0 v ∧ w = some v := by
  obtain ⟨q, hq, hw⟩ := Checked.bind_eq_ok.mp h
  rw [← List.append_nil (P.visit text)] at hq
  obtain ⟨hallowed, hq⟩ := visited v 0 _ _ _ _ rfl (P.visit_tokens _ _ hread) hq
  cases hq
  cases hw
  exact ⟨hallowed (Nat.zero_le _), rfl⟩

/-- A text that is no JSON is refused. -/
theorem parseText_of_unread (hread : Json.readText P.numbers text = none) (w : Option Json) :
    parseText P text noncharacters ≠ .ok w := by
  intro h
  obtain ⟨q, hq, _⟩ := Checked.bind_eq_ok.mp h
  exact onVisits_error (P.visit_error _ hread) _ _ hq

/-- A text that consists of what an I-JSON value consists of is read as that value. -/
theorem parseText_of_ijson {v : Json} (hread : Json.readText P.numbers text = some (Json.tokens v))
    (h : IJson 0 v) : parseText P text noncharacters = .ok (some v) := by
  have hbuild := @IJson.builds text noncharacters 0 v h .start _ [] rfl
    (P.visit_tokens _ _ hread)
  rw [List.append_nil] at hbuild
  rw [parseText, hbuild]
  rfl

theorem error_of_ne_ok {ε α : Type} {x : Except ε α} (h : ∀ a, x ≠ .ok a) : ∃ e, x = .error e := by
  cases x with
  | error e => exact ⟨e, rfl⟩
  | ok a => exact absurd rfl (h a)

end

/-! ## The copy is the value -/

namespace JsValue

/-- Every object in the value lists each of its own keys once, as objects of the language
do. -/
inductive OwnKeys : JsValue → Prop where
  | undefined : OwnKeys .undefined
  | scalar (s : Scalar) : OwnKeys (.scalar s)
  | other (typeName : JsString) : OwnKeys (.other typeName)
  | array {elements : List JsValue} : (∀ v ∈ elements, OwnKeys v) → OwnKeys (.array elements)
  | object {members : List (JsString × JsValue)} : (members.map Prod.fst).Nodup →
      (∀ m ∈ members, OwnKeys m.2) → OwnKeys (.object members)
  | host (name json : JsString) : OwnKeys (.host name json)

theorem ownKeys_ofJson {v : Json} (h : v.Distinct) : OwnKeys (ofJson v) := by
  induction h with
  | scalar s => exact .scalar s
  | array _ ih =>
      rw [ofJson, ofItems_eq_map]
      refine .array fun v hv => ?_
      obtain ⟨u, hu, rfl⟩ := List.mem_map.mp hv
      exact ih u hu
  | object hnodup _ ih =>
      rw [ofJson, ofMembers_eq_map]
      refine .object ?_ fun m hm => ?_
      · rw [List.map_map]
        exact hnodup
      · obtain ⟨n, hn, rfl⟩ := List.mem_map.mp hm
        exact ih n hn

theorem eq_of_map_eq {α β : Type} {f : α → β} {l : List α}
    (hf : ∀ a ∈ l, ∀ b, f a = f b → a = b) : ∀ {l' : List α}, l.map f = l'.map f → l = l' := by
  induction l with
  | nil => intro l' h; exact (List.map_eq_nil_iff.mp h.symm).symm
  | cons a l ih =>
      intro l' h
      rw [List.forall_mem_cons] at hf
      cases l' with
      | nil => cases h
      | cons b l' =>
          rw [List.map_cons, List.map_cons, List.cons.injEq] at h
          rw [hf.1 b h.1, ih hf.2 h.2]

theorem ofJson_injective {v : Json} : ∀ w, ofJson v = ofJson w → v = w := by
  induction v using Json.ind with
  | scalar s =>
      intro w h
      cases w <;> cases h
      rfl
  | array items ih =>
      intro w h
      cases w with
      | scalar => cases h
      | object => cases h
      | array items' =>
          rw [ofJson, ofJson, array.injEq, ofItems_eq_map, ofItems_eq_map] at h
          rw [eq_of_map_eq ih h]
  | object members ih =>
      intro w h
      cases w with
      | scalar => cases h
      | array => cases h
      | object members' =>
          rw [ofJson, ofJson, object.injEq, ofMembers_eq_map, ofMembers_eq_map] at h
          refine congrArg Json.object (eq_of_map_eq (fun m hm n hn => ?_) h)
          rw [Prod.mk.injEq] at hn
          exact Prod.ext hn.1 (ih m hm _ hn.2)

end JsValue

/-- The copy of a value is the value. -/
def Copies (value : JsValue) : Prop :=
  value.OwnKeys → ∀ depth path v, admitValue value depth path = .ok v → value = .ofJson v

theorem copies_elements {elements : List JsValue} (ih : ∀ value ∈ elements, Copies value)
    (hkeys : ∀ value ∈ elements, value.OwnKeys) :
    ∀ i depth path items, admitElements elements i depth path = .ok items →
      elements = JsValue.ofItems items := by
  induction elements with
  | nil => intro i depth path items h; cases h; rfl
  | cons value elements ihe =>
      intro i depth path items h
      rw [List.forall_mem_cons] at ih hkeys
      obtain ⟨v, hv, h⟩ := Checked.bind_eq_ok.mp h
      obtain ⟨vs, hvs, h⟩ := Checked.bind_eq_ok.mp h
      cases h
      rw [JsValue.ofItems, ← ih.1 hkeys.1 _ _ _ hv, ← ihe ih.2 hkeys.2 _ _ _ _ hvs]

theorem copies_members {members : List (JsString × JsValue)}
    (ih : ∀ m ∈ members, Copies m.2) (hkeys : ∀ m ∈ members, m.2.OwnKeys) :
    ∀ admitted depth path result,
      (admitted.map Prod.fst ++ members.map Prod.fst).Nodup →
      admitMembers members admitted depth path = .ok result →
      ∃ rest, result = admitted ++ rest ∧ members = JsValue.ofMembers rest := by
  induction members with
  | nil =>
      intro admitted depth path result _ h
      cases h
      exact ⟨[], (List.append_nil _).symm, rfl⟩
  | cons m members ihm =>
      intro admitted depth path result hnodup h
      obtain ⟨key, member⟩ := m
      rw [List.forall_mem_cons] at ih hkeys
      obtain ⟨_, _, h⟩ := Checked.bind_eq_ok.mp h
      obtain ⟨_, h⟩ := Checked.refuse_bind_eq_ok.mp h
      obtain ⟨v, hv, h⟩ := Checked.bind_eq_ok.mp h
      rw [List.map_cons] at hnodup
      have hnew : key ∉ admitted.map Prod.fst := fun hmem =>
        (List.nodup_append.mp hnodup).2.2 key hmem key List.mem_cons_self rfl
      rw [define_of_notMem hnew] at h
      obtain ⟨rest, hresult, hmembers⟩ := ihm ih.2 hkeys.2 _ _ _ _
        (by rw [List.map_append, List.append_assoc]; exact hnodup) h
      refine ⟨(key, v) :: rest, by rw [hresult, List.append_assoc]; rfl, ?_⟩
      rw [JsValue.ofMembers, ← hmembers]
      exact congrArg (fun value => (key, value) :: members) (ih.1 hkeys.1 _ _ _ hv)

theorem copies (value : JsValue) : Copies value := by
  induction value using JsValue.ind with
  | undefined => intro _ depth path v h; cases h
  | scalar s =>
      intro _ depth path v h
      cases s with
      | null => cases h; rfl
      | boolean b => cases h; rfl
      | number x =>
          obtain ⟨_, h⟩ := Checked.refuse_bind_eq_ok.mp h
          cases h
          rfl
      | string s =>
          obtain ⟨_, _, h⟩ := Checked.bind_eq_ok.mp h
          cases h
          rfl
  | other typeName => intro _ depth path v h; cases h
  | array elements ih =>
      intro hkeys depth path v h
      rw [admitValue] at h
      obtain ⟨_, h⟩ := Checked.refuse_bind_eq_ok.mp h
      obtain ⟨items, hitems, h⟩ := Checked.bind_eq_ok.mp h
      cases h
      cases hkeys with
      | array hkeys =>
          rw [JsValue.ofJson, ← copies_elements ih hkeys _ _ _ _ hitems]
  | object members ih =>
      intro hkeys depth path v h
      rw [admitValue] at h
      obtain ⟨_, h⟩ := Checked.refuse_bind_eq_ok.mp h
      obtain ⟨admitted, hadmitted, h⟩ := Checked.bind_eq_ok.mp h
      cases h
      cases hkeys with
      | object hnodup hkeys =>
          obtain ⟨rest, hrest, hmembers⟩ := copies_members ih hkeys [] _ _ _ hnodup hadmitted
          rw [List.nil_append] at hrest
          rw [JsValue.ofJson, hrest, ← hmembers]
  | host name json =>
      intro _ depth path v h
      rw [admitValue] at h
      obtain ⟨_, h⟩ := Checked.refuse_bind_eq_ok.mp h
      cases h

section
variable {P : Packages}

/-- What is canonicalized is an I-JSON value, and its canonical bytes come back. -/
theorem ijson_of_canonicalize {value : JsValue} (hkeys : value.OwnKeys) {bytes : List UInt8}
    (h : canonicalize P value = .ok bytes) :
    ∃ v, value = .ofJson v ∧ IJson 0 v ∧ bytes = canonicalBytes P v := by
  obtain ⟨t, ht, _⟩ := Checked.bind_eq_ok.mp h
  obtain ⟨v, hv, _⟩ := Checked.bind_eq_ok.mp ht
  refine ⟨v, copies value hkeys _ _ v hv, admit_ijson value _ _ v hv, ?_⟩
  rw [canonicalize_of_plain hv] at h
  exact (Except.ok.inj h).symm

theorem IJson.distinct {v : Json} (h : IJson 0 v) : v.Distinct :=
  ((ijson_iff_allowed (Nat.zero_le _)).mp h).distinct

/-- Canonical bytes are equal exactly where the values are the same. -/
theorem canonicalBytes_eq_iff {v w : Json} (hv : IJson 0 v) (hw : IJson 0 w) :
    canonicalBytes P v = canonicalBytes P w ↔ Same v w := by
  rw [Json.same_iff_canonical hv.distinct hw.distinct]
  constructor
  · intro h
    have hread := parseStrict_canonicalBytes (P := P) hv false
    rw [h, parseStrict_canonicalBytes hw false] at hread
    exact (Option.some.inj (Except.ok.inj hread)).symm
  · intro h
    rw [← canonicalBytes_canonical P v, h, canonicalBytes_canonical]

/-- Both directions let the same nesting through. -/
theorem accepted_iff_nesting {v : Json} (hdistinct : v.Distinct)
    (hpasses : ∀ t ∈ Json.tokens v, passes false t) :
    ((∃ bytes, canonicalize P (.ofJson v) = .ok bytes) ↔ v.nesting ≤ MAX_DEPTH) ∧
      ∀ text noncharacters, Json.readText P.numbers text = some (Json.tokens v) →
        ((∃ w, parseText P text noncharacters = .ok w) ↔ v.nesting ≤ MAX_DEPTH) := by
  have hijson : v.nesting ≤ MAX_DEPTH → IJson 0 v := fun h =>
    (ijson_iff_allowed (Nat.zero_le _)).mpr ⟨hdistinct, by rwa [Nat.zero_add], hpasses⟩
  refine ⟨⟨fun h => ?_, fun h => ⟨_, canonicalize_ofJson (hijson h)⟩⟩, fun text nc hread => ?_⟩
  · obtain ⟨bytes, h⟩ := h
    obtain ⟨w, hw, hijson, _⟩ := ijson_of_canonicalize (JsValue.ownKeys_ofJson hdistinct) h
    have hnests := ((ijson_iff_allowed (Nat.zero_le _)).mp hijson).nests
    rwa [← JsValue.ofJson_injective w hw, Nat.zero_add] at hnests
  · constructor
    · intro h
      obtain ⟨w, h⟩ := h
      have hnests := (parseText_eq_ok hread h).1.nests
      rwa [Nat.zero_add] at hnests
    · intro h
      exact ⟨_, parseText_of_ijson hread (hijson h)⟩

/-- What a canonicalized value is written as reads back as the same value, and one
canonical form stands for one value. A text that names a member twice, or holds a
surrogate that stands alone, or nests too deep, is refused in either form; and what is
refused for its nesting alone is the same in both directions. -/
theorem strict_json (P : Packages) :
    (∀ value bytes, value.OwnKeys → canonicalize P value = .ok bytes →
      ∃ v, value = .ofJson v ∧ ∀ noncharacters,
        ∃ w, parseStrict P bytes noncharacters = .ok (some w) ∧ Same w v) ∧
    (∀ v w bytes bytes', v.Distinct → w.Distinct →
      canonicalize P (.ofJson v) = .ok bytes → canonicalize P (.ofJson w) = .ok bytes' →
      (bytes = bytes' ↔ Same v w)) ∧
    (∀ text noncharacters,
      (Json.readText P.numbers text = none →
        ∃ e, parseText P text noncharacters = .error e) ∧
      ∀ ts, Json.readText P.numbers text = some ts → ∃ v, ts = Json.tokens v) ∧
    (∀ v text noncharacters, Json.readText P.numbers text = some (Json.tokens v) →
      (¬ v.Distinct ∨ MAX_DEPTH < v.nesting ∨
        ∃ s, (Token.property s ∈ Json.tokens v ∨ Token.literal (.string s) ∈ Json.tokens v) ∧
          Utf16.loneSurrogate s = true) →
      (∃ e, parseText P text noncharacters = .error e) ∧
        ∀ bytes, Utf16.decodeUtf8 bytes = some text →
          ∃ e, parseStrict P bytes noncharacters = .error e) ∧
    ∀ v, v.Distinct → (∀ t ∈ Json.tokens v, passes false t) →
      ((∃ bytes, canonicalize P (.ofJson v) = .ok bytes) ↔ v.nesting ≤ MAX_DEPTH) ∧
        ∀ text noncharacters, Json.readText P.numbers text = some (Json.tokens v) →
          ((∃ w, parseText P text noncharacters = .ok w) ↔ v.nesting ≤ MAX_DEPTH) := by
  refine ⟨?_, ?_, ?_, ?_, fun v hv hpasses => accepted_iff_nesting hv hpasses⟩
  · intro value bytes hkeys h
    obtain ⟨v, rfl, hv, rfl⟩ := ijson_of_canonicalize hkeys h
    refine ⟨v, rfl, fun nc => ⟨v.canonical, parseStrict_canonicalBytes hv nc, ?_⟩⟩
    exact Json.same_of_canonical_eq (Json.canonical_canonical v)
  · intro v w bytes bytes' hv hw h h'
    obtain ⟨v', hv', hijson, rfl⟩ := ijson_of_canonicalize (JsValue.ownKeys_ofJson hv) h
    obtain ⟨w', hw', hijson', rfl⟩ := ijson_of_canonicalize (JsValue.ownKeys_ofJson hw) h'
    rw [JsValue.ofJson_injective v' hv', JsValue.ofJson_injective w' hw']
    exact canonicalBytes_eq_iff hijson hijson'
  · intro text nc
    exact ⟨fun hread => error_of_ne_ok (parseText_of_unread hread),
      fun ts hread => Json.readText_tokens hread⟩
  · intro v text nc hread hbad
    have hrefused : ∃ e, parseText P text nc = .error e := by
      refine error_of_ne_ok fun w h => ?_
      obtain ⟨hallowed, _⟩ := parseText_eq_ok hread h
      have hnests := hallowed.nests
      rcases hbad with hdup | hdeep | ⟨s, hs, hlone⟩
      · exact hdup hallowed.distinct
      · omega
      · have hforbidden : forbiddenIn s nc = none := by
          rcases hs with hs | hs
          · exact hallowed.passes _ hs
          · exact hallowed.passes _ hs
        rw [loneSurrogate_of_admitted hforbidden] at hlone
        cases hlone
    refine ⟨hrefused, fun bytes hbytes => ?_⟩
    rw [parseStrict, hbytes]
    exact hrefused

end

/-- `{"__proto__":[-0]}`. -/
def protoValue : Json := .object [(lit "__proto__", .array [.scalar (.number .negZero)])]

theorem protoValue_ijson : IJson 0 protoValue := by
  refine .object (by decide) (List.nodup_singleton _) ?_ ?_
  · intro m hm
    rw [List.mem_singleton.mp hm]
    decide
  · intro m hm
    rw [List.mem_singleton.mp hm]
    refine .array (by decide) fun v hv => ?_
    rw [List.mem_singleton.mp hv]
    exact .number rfl

theorem strict_json_example :
    (∃ bytes w, canonicalize examplePackages (.ofJson protoValue) = .ok bytes ∧
      parseStrict examplePackages bytes false = .ok (some w) ∧ Same w protoValue) ∧
    ∃ e, parseText examplePackages (lit "\x7b\"a\":null,\"a\":null\x7d") true = .error e := by
  obtain ⟨hround, _, _, hrefused, _⟩ := strict_json examplePackages
  have hwritten := canonicalize_ofJson (P := examplePackages) protoValue_ijson
  obtain ⟨v, hv, hread⟩ := hround _ _ (JsValue.ownKeys_ofJson protoValue_ijson.distinct) hwritten
  obtain ⟨w, hw, hsame⟩ := hread false
  rw [← JsValue.ofJson_injective _ hv] at hsame
  refine ⟨⟨_, w, hwritten, hw, hsame⟩, ?_⟩
  have hdup : Json.readText examplePackages.numbers (lit "\x7b\"a\":null,\"a\":null\x7d") =
      some (Json.tokens (.object [(lit "a", .scalar .null), (lit "a", .scalar .null)])) := by
    decide +kernel
  refine (hrefused _ _ true hdup (.inl ?_)).1
  intro h
  cases h with
  | object hnodup => exact absurd hnodup (by decide)

end Estoc.EventStore
