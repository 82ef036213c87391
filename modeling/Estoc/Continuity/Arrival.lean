import Estoc.Continuity.Stages
import Estoc.Lib.Checked
import Estoc.Lib.Utf8Order

/-!
# Continuity ignores arrival

What is derived is derived from the facts in the order of their identities, each once.
Two hosts that hold the same facts hold the same list after that, whatever order and
repetition they came in, and so one model, which answers every query alike. The order is
the order of the identities' UTF-8 bytes, which is no implementation's own.
-/

set_option linter.unusedSectionVars false

namespace Estoc.Continuity

open Utf16 (JsString isHigh isLow codePoints compareNats)

/-! ## Comparing code units -/

namespace Units

/-- The code point in front of a text: a pair of surrogates is one. -/
def codePointAt (u : UInt16) : JsString → Nat
  | [] => u.toNat
  | v :: _ =>
    if isHigh u && isLow v then 0x10000 + (u.toNat - 0xD800) * 0x400 + (v.toNat - 0xDC00)
    else u.toNat

/-- What is left behind a code point. -/
def behind (point : Nat) (rest : JsString) : JsString :=
  if 0xFFFF < point then rest.tail else rest

theorem length_behind_le (point : Nat) (rest : JsString) :
    (behind point rest).length ≤ rest.length := by
  unfold behind
  split
  · rw [List.length_tail]
    omega
  · exact Nat.le_refl _

/-- Code point order of two texts as they are held, a proper prefix first. -/
def compareUtf8 : JsString → JsString → Ordering
  | [], [] => .eq
  | [], _ :: _ => .lt
  | _ :: _, [] => .gt
  | u :: a, v :: b =>
    if codePointAt u a ≠ codePointAt v b then
      if codePointAt u a < codePointAt v b then .lt else .gt
    else compareUtf8 (behind (codePointAt u a) a) (behind (codePointAt v b) b)
termination_by a => a.length
decreasing_by
  have := length_behind_le (codePointAt u a) a
  simp only [List.length_cons]
  omega

theorem codePoints_cons (u : UInt16) (a : JsString) :
    codePoints (u :: a) = codePointAt u a :: codePoints (behind (codePointAt u a) a) := by
  have hunit : ¬ 0xFFFF < u.toNat := by
    have := u.toNat_lt
    omega
  cases a with
  | nil =>
      rw [codePointAt, behind, if_neg hunit]
      rfl
  | cons v a =>
      rw [codePoints, codePointAt]
      split
      · rw [behind, if_pos (by omega), List.tail_cons]
      · rw [behind, if_neg hunit]

/-- Walking the code units compares the code points. -/
theorem compareUtf8_eq (a b : JsString) :
    compareUtf8 a b = compareNats (codePoints a) (codePoints b) := by
  fun_induction compareUtf8 a b with
  | case1 => rfl
  | case2 v b => rw [codePoints_cons]; rfl
  | case3 u a => rw [codePoints_cons]; rfl
  | case4 u a v b hne hlt =>
      rw [codePoints_cons, codePoints_cons, Utf16.compareNats_cons_of_lt hlt]
  | case5 u a v b hne hnlt =>
      rw [codePoints_cons, codePoints_cons, @Std.OrientedCmp.eq_swap _ compareNats _ _ _,
        Utf16.compareNats_cons_of_lt (by omega)]
      rfl
  | case6 u a v b heq ih =>
      rw [codePoints_cons, codePoints_cons, ih, not_not.mp heq, Utf16.compareNats_cons_self]

/-- A text of characters as it is held. -/
def unitsOf (s : String) : JsString := Utf16.ofChars s.toList

theorem compareNats_map_toNat (a b : List Char) :
    compareNats (a.map Char.toNat) (b.map Char.toNat) = comparePoints a b := by
  induction a generalizing b with
  | nil => cases b <;> rfl
  | cons x a ih =>
      cases b with
      | nil => rfl
      | cons y b =>
          have hlt : ∀ x y : Char, x < y ↔ x.toNat < y.toNat := fun _ _ => Iff.rfl
          rw [List.map_cons, List.map_cons, comparePoints]
          by_cases heq : x = y
          · rw [if_pos heq, heq, Utf16.compareNats_cons_self, ih]
          · rw [if_neg heq]
            split
            · next h => exact Utf16.compareNats_cons_of_lt ((hlt x y).mp h) _ _
            · next h =>
              have hne : x.toNat ≠ y.toNat := fun h => heq (Char.toNat_inj.mp h)
              have hge : ¬ x.toNat < y.toNat := fun h' => h ((hlt x y).mpr h')
              rw [@Std.OrientedCmp.eq_swap _ compareNats _ _ _,
                Utf16.compareNats_cons_of_lt (by omega)]
              rfl

/-- Comparing texts of characters is comparing them as they are held. -/
theorem compareUtf8_unitsOf (s t : String) :
    compareUtf8 (unitsOf s) (unitsOf t) = Continuity.compareUtf8 s t := by
  rw [compareUtf8_eq, unitsOf, unitsOf, Utf16.codePoints_ofChars, Utf16.codePoints_ofChars,
    compareNats_map_toNat]
  rfl

/-- A text without a surrogate that stands alone is a text of characters. -/
theorem eq_unitsOf {a : JsString} (h : Utf16.loneSurrogate a = false) : ∃ s, a = unitsOf s :=
  ⟨String.ofList (Utf16.chars a), by
    rw [unitsOf, String.toList_ofList, Utf16.ofChars_chars h]⟩

theorem unitsOf_injective {s t : String} (h : unitsOf s = unitsOf t) : s = t := by
  have hchars := congrArg Utf16.chars h
  rw [unitsOf, unitsOf, Utf16.chars_ofChars, Utf16.chars_ofChars] at hchars
  exact String.toList_injective hchars

/-- The order of texts is the order of their UTF-8 bytes. -/
theorem compareUtf8_bytes {a b : JsString} (ha : Utf16.loneSurrogate a = false)
    (hb : Utf16.loneSurrogate b = false) :
    compareUtf8 a b = compareNats ((Utf16.encodeUtf8 a).map UInt8.toNat)
      ((Utf16.encodeUtf8 b).map UInt8.toNat) := by
  rw [compareUtf8_eq, ← Utf16.ofChars_chars ha, ← Utf16.ofChars_chars hb,
    Utf16.compareNats_encodeUtf8]

/-- A total order of the well-formed texts: what compares equal is equal, the order turns
round with its arguments, and it is transitive. -/
theorem compareUtf8_total {a b c : JsString} (ha : Utf16.loneSurrogate a = false)
    (hb : Utf16.loneSurrogate b = false) (hc : Utf16.loneSurrogate c = false) :
    (compareUtf8 a b = .eq ↔ a = b) ∧ compareUtf8 a b = (compareUtf8 b a).swap ∧
      (compareUtf8 a b = .lt → compareUtf8 b c = .lt → compareUtf8 a c = .lt) := by
  obtain ⟨s, rfl⟩ := eq_unitsOf ha
  obtain ⟨t, rfl⟩ := eq_unitsOf hb
  obtain ⟨r, rfl⟩ := eq_unitsOf hc
  simp only [compareUtf8_unitsOf]
  refine ⟨⟨fun h => ?_, fun h => ?_⟩, Std.OrientedCmp.eq_swap, Std.TransCmp.lt_trans⟩
  · rw [@Std.LawfulEqCmp.eq_of_compare _ Continuity.compareUtf8 _ _ _ h]
  · rw [unitsOf_injective h]
    exact Std.ReflCmp.compare_self

end Units

/-! ## The facts accepted -/

/-- The order the facts are derived over in. -/
def byIdentity : FactIdentity × ContinuityFact → FactIdentity × ContinuityFact → Ordering :=
  Cmp.comap Prod.fst compareUtf8

instance : Std.TransCmp byIdentity := inferInstanceAs (Std.TransCmp (Cmp.comap Prod.fst compareUtf8))

theorem accept_sorted {facts : List ContinuityFact}
    {accepted : List (FactIdentity × ContinuityFact)} (h : accept facts = .ok accepted) :
    accepted.Pairwise fun a b => (byIdentity a b).isLE := by
  obtain ⟨m, _, hm⟩ := Checked.bind_eq_ok.mp h
  cases hm
  exact @Cmp.sortBy_sorted _ byIdentity _ m.entries

/-- The same facts are accepted as one list. -/
theorem accept_eq_of_mem_iff {facts facts' : List ContinuityFact} (hv : ∀ f ∈ facts, f.Valid)
    (hv' : ∀ f ∈ facts', f.Valid) (hsame : ∀ f, f ∈ facts ↔ f ∈ facts') :
    ∃ accepted, accept facts = .ok accepted ∧ accept facts' = .ok accepted := by
  obtain ⟨accepted, hok, hnodup, hmem⟩ := accept_spec hv
  obtain ⟨accepted', hok', hnodup', hmem'⟩ := accept_spec hv'
  have hperm : accepted.Perm accepted' := by
    refine (List.perm_ext_iff_of_nodup hnodup.of_map hnodup'.of_map).mpr fun p => ?_
    rw [hmem p.1 p.2, hmem' p.1 p.2, hsame]
  have heq : accepted = accepted' := by
    refine Cmp.eq_of_sorted (fun p hp q hq hpq => ?_) hperm (accept_sorted hok)
      (accept_sorted hok')
    have hid : p.1 = q.1 := @Std.LawfulEqCmp.eq_of_compare _ compareUtf8 _ _ _ hpq
    exact List.inj_on_of_nodup_map hnodup hp hq hid
  exact ⟨accepted, hok, heq ▸ hok'⟩

/-- Where facts are accepted, every one of them is valid. -/
theorem valid_of_accept {facts : List ContinuityFact}
    {accepted : List (FactIdentity × ContinuityFact)} (h : accept facts = .ok accepted) :
    ∀ f ∈ facts, f.Valid := by
  have hfold : ∀ (l : List (ContinuityFact × Nat)) (acc m : OMap FactIdentity ContinuityFact),
      l.foldlM (m := Except InvalidFact) (fun acc q => do
        let fact ← validateFact q.1 s!"facts[{q.2}]"
        pure (acc.set (identityOf fact) fact)) acc = .ok m → ∀ p ∈ l, p.1.Valid := by
    intro l
    induction l with
    | nil =>
        intro _ _ _ p hp
        cases hp
    | cons q l ih =>
        intro acc m hm p hp
        rw [List.foldlM_cons] at hm
        obtain ⟨acc', hq, hm⟩ := Checked.bind_eq_ok.mp hm
        obtain ⟨fact, hfact, _⟩ := Checked.bind_eq_ok.mp hq
        rcases List.mem_cons.mp hp with rfl | hp
        · exact (validateFact_eq_ok.mp hfact).1
        · exact ih acc' m hm p hp
  obtain ⟨m, hm, _⟩ := Checked.bind_eq_ok.mp h
  intro f hf
  obtain ⟨i, hi⟩ := List.getElem?_of_mem hf
  exact hfold _ _ _ hm (f, i) (List.mk_mem_zipIdx_iff_getElem?.mpr hi)

/-- A model that was derived is the model of the facts' entries. -/
theorem entries_of_derived {facts : List ContinuityFact} {m : Model}
    (h : deriveContinuity facts = .ok m) :
    ∃ entries, EntriesOf facts entries ∧ m = Model.ofEntries entries := by
  obtain ⟨accepted, haccepted, _⟩ := Checked.bind_eq_ok.mp h
  obtain ⟨entries, hentries, hok⟩ := deriveContinuity_spec (valid_of_accept haccepted)
  rw [hok] at h
  cases h
  exact ⟨entries, hentries, rfl⟩

/-- The same facts are derived into one model. -/
theorem deriveContinuity_eq_of_mem_iff {facts facts' : List ContinuityFact}
    (hv : ∀ f ∈ facts, f.Valid) (hv' : ∀ f ∈ facts', f.Valid)
    (hsame : ∀ f, f ∈ facts ↔ f ∈ facts') :
    ∃ m, deriveContinuity facts = .ok m ∧ deriveContinuity facts' = .ok m := by
  obtain ⟨accepted, h, h'⟩ := accept_eq_of_mem_iff hv hv' hsame
  refine ⟨Model.ofEntries (Entries.ofFacts accepted), ?_, ?_⟩
  · rw [deriveContinuity, h]
    rfl
  · rw [deriveContinuity, h']
    rfl

theorem factIdentity_of_valid {f : ContinuityFact} (h : f.Valid) :
    factIdentity f = .ok (identityOf f) := by
  rw [factIdentity, validateFact_of_valid h]
  rfl

/-! ## What links connect

The walk `history` makes over the links ends where a round adds nothing, and then no link
leads out of what it found. -/

namespace Model

variable {m : Model}

theorem growBy_eq_or (component : List Channel) (e : Edge FactIdentity) :
    ((e.from ∈ component ↔ e.to ∈ component) ∧ growBy component e = component) ∨
      (e.from ∈ component ∧ e.to ∉ component ∧ growBy component e = component ++ [e.to]) ∨
      (e.from ∉ component ∧ e.to ∈ component ∧ growBy component e = component ++ [e.from]) := by
  unfold growBy
  by_cases hf : e.from ∈ component <;> by_cases ht : e.to ∈ component <;> simp [hf, ht]

theorem prefix_foldl_growBy (es : List (Edge FactIdentity)) (component : List Channel) :
    component <+: es.foldl growBy component := by
  induction es generalizing component with
  | nil => exact List.prefix_refl _
  | cons e es ih =>
      refine List.IsPrefix.trans ?_ (ih _)
      rcases growBy_eq_or component e with ⟨_, h⟩ | ⟨_, _, h⟩ | ⟨_, _, h⟩
      · rw [h]
      · rw [h]; exact List.prefix_append _ _
      · rw [h]; exact List.prefix_append _ _

/-- A round that adds nothing met no link with one end in the component. -/
theorem closed_of_length_eq {es : List (Edge FactIdentity)} {component : List Channel}
    (h : (es.foldl growBy component).length = component.length) :
    ∀ e ∈ es, e.from ∈ component ↔ e.to ∈ component := by
  induction es with
  | nil => intro e he; cases he
  | cons e es ih =>
      have hle := (prefix_foldl_growBy es (growBy component e)).length_le
      rw [List.foldl_cons] at h
      rcases growBy_eq_or component e with ⟨hiff, heq⟩ | ⟨_, _, heq⟩ | ⟨_, _, heq⟩
      · rw [heq] at h
        exact List.forall_mem_cons.mpr ⟨hiff, ih h⟩
      · rw [heq, List.length_append, List.length_singleton, ← heq] at hle
        omega
      · rw [heq, List.length_append, List.length_singleton, ← heq] at hle
        omega

/-- Everything in a component is connected to where it started. -/
inductive Connected (m : Model) (c : Channel) : Channel → Prop where
  | refl : Connected m c c
  | «from» {e : Edge FactIdentity} : Connected m c e.from → e ∈ m.positive.edges →
      Connected m c e.to
  | «to» {e : Edge FactIdentity} : Connected m c e.to → e ∈ m.positive.edges →
      Connected m c e.from

theorem connected_foldl_growBy {c : Channel} {es : List (Edge FactIdentity)}
    (hes : ∀ e ∈ es, e ∈ m.positive.edges) {component : List Channel}
    (h : ∀ d ∈ component, Connected m c d) :
    ∀ d ∈ es.foldl growBy component, Connected m c d := by
  induction es generalizing component with
  | nil => exact h
  | cons e es ih =>
      rw [List.forall_mem_cons] at hes
      refine ih hes.2 fun d hd => ?_
      rcases growBy_eq_or component e with ⟨_, heq⟩ | ⟨hin, _, heq⟩ | ⟨_, hin, heq⟩
      · rw [heq] at hd
        exact h d hd
      · rw [heq, List.mem_append, List.mem_singleton] at hd
        rcases hd with hd | rfl
        · exact h d hd
        · exact .from (h _ hin) hes.1
      · rw [heq, List.mem_append, List.mem_singleton] at hd
        rcases hd with hd | rfl
        · exact h d hd
        · exact .to (h _ hin) hes.1

/-- Both ends of every link. -/
def linkEnds (es : List (Edge FactIdentity)) : List Channel := es.flatMap fun e => [e.from, e.to]

theorem length_linkEnds (es : List (Edge FactIdentity)) :
    (linkEnds es).length = 2 * es.length := by
  induction es with
  | nil => rfl
  | cons e es ih =>
      rw [linkEnds, List.flatMap_cons, List.length_append]
      have ih : (es.flatMap fun e => [e.from, e.to]).length = 2 * es.length := ih
      simp only [ih, List.length_cons, List.length_nil]
      omega

theorem exists_new_of_grow {es : List (Edge FactIdentity)} {component : List Channel}
    (h : (es.foldl growBy component).length ≠ component.length) :
    ∃ c ∈ linkEnds es, c ∉ component ∧ c ∈ es.foldl growBy component := by
  induction es generalizing component with
  | nil => exact absurd rfl h
  | cons e es ih =>
      rw [List.foldl_cons] at h ⊢
      have hsub := (prefix_foldl_growBy es (growBy component e)).subset
      rcases growBy_eq_or component e with ⟨_, heq⟩ | ⟨_, hout, heq⟩ | ⟨hout, _, heq⟩
      · rw [heq] at h ⊢
        obtain ⟨c, hc, hnew, hgrown⟩ := ih h
        exact ⟨c, List.mem_append_right _ hc, hnew, hgrown⟩
      · refine ⟨e.to, by simp [linkEnds], hout, hsub ?_⟩
        rw [heq]
        simp
      · refine ⟨e.from, by simp [linkEnds], hout, hsub ?_⟩
        rw [heq]
        simp

/-- How many ends of links a component does not have yet. -/
def outside (m : Model) (component : List Channel) : Nat :=
  ((linkEnds m.positive.edges).toFinset \ component.toFinset).card

theorem grow_eq_some {component grown : List Channel} (h : m.grow component = some grown) :
    grown = m.positive.edges.foldl growBy component ∧ grown.length ≠ component.length := by
  unfold grow at h
  simp only at h
  split at h
  · cases h
  · next hne => cases h; exact ⟨rfl, hne⟩

theorem outside_lt {component grown : List Channel} (h : m.grow component = some grown) :
    m.outside grown < m.outside component := by
  obtain ⟨rfl, hne⟩ := grow_eq_some h
  obtain ⟨c, hc, hnew, hgrown⟩ := exists_new_of_grow hne
  have hsub := (prefix_foldl_growBy m.positive.edges component).subset
  refine Finset.card_lt_card (Finset.ssubset_iff_of_subset ?_ |>.mpr ⟨c, ?_, ?_⟩)
  · intro d hd
    rw [Finset.mem_sdiff, List.mem_toFinset, List.mem_toFinset] at hd ⊢
    exact ⟨hd.1, fun hmem => hd.2 (hsub hmem)⟩
  · rw [Finset.mem_sdiff, List.mem_toFinset, List.mem_toFinset]
    exact ⟨hc, hnew⟩
  · rw [Finset.mem_sdiff, List.mem_toFinset, List.mem_toFinset]
    exact fun h => h.2 hgrown

/-- A component is what links connect to the channel, in whichever direction. -/
theorem mem_component {c d : Channel} : d ∈ m.component c ↔ Connected m c d := by
  have hfuel : m.outside [c] ≤ 2 * m.positive.edges.length := by
    refine (Finset.card_le_card Finset.sdiff_subset).trans ?_
    rw [← length_linkEnds]
    exact List.toFinset_card_le _
  obtain ⟨⟨hc, hsound⟩, hover⟩ := Loop.run_spec
    (fun component => c ∈ component ∧ ∀ d ∈ component, Connected m c d) m.outside
    (fun component grown hinv (h : m.grow component = some grown) => by
      refine ⟨?_, outside_lt h⟩
      obtain ⟨rfl, _⟩ := grow_eq_some h
      exact ⟨(prefix_foldl_growBy _ component).subset hinv.1,
        connected_foldl_growBy (fun _ he => he) hinv.2⟩)
    (s := [c]) ⟨List.mem_singleton_self c, fun d hd => List.mem_singleton.mp hd ▸ .refl⟩ hfuel
  have hclosed : ∀ e ∈ m.positive.edges, e.from ∈ m.component c ↔ e.to ∈ m.component c := by
    refine closed_of_length_eq ?_
    unfold grow at hover
    simp only at hover
    split at hover
    · assumption
    · cases hover
  constructor
  · exact hsound d
  · intro h
    induction h with
    | refl => exact hc
    | «from» _ he ih => exact (hclosed _ he).mp ih
    | «to» _ he ih => exact (hclosed _ he).mpr ih

end Model

/-! ## One answer to every query -/

/-- Every query of the interface is answered alike. -/
structure SameAnswers (m m' : Model) : Prop where
  facts : m.facts = m'.facts
  conflicts : m.conflicts = m'.conflicts
  head : ∀ c, m.head c = m'.head c
  path : ∀ a b, m.path a b = m'.path a b
  confirmation : ∀ localDid peerDid,
    m.confirmation localDid peerDid = m'.confirmation localDid peerDid
  history : ∀ c, m.history c = m'.history c
  changes : ∀ c side, m.changes c side = m'.changes c side
  localDecisions : ∀ c, m.localDecisions c = m'.localDecisions c
  status : ∀ fact, m.status fact = m'.status fact

/-- Facts that say the same are answered for alike, whatever order and repetition they
came in; a fact's identity is its content; and the order they are derived over is the
order of UTF-8 bytes, a total one. -/
theorem continuity_ignores_arrival :
    (∀ facts facts' : List ContinuityFact, (∀ f ∈ facts, f.Valid) → (∀ f ∈ facts', f.Valid) →
      (∀ f, f ∈ facts ↔ f ∈ facts') →
      ∃ m m', deriveContinuity facts = .ok m ∧ deriveContinuity facts' = .ok m' ∧
        SameAnswers m m') ∧
    (∀ f g : ContinuityFact, f.Valid → g.Valid → factIdentity f = factIdentity g → f = g) ∧
    (∀ s t : String, compareUtf8 s t = Units.compareUtf8 (Units.unitsOf s) (Units.unitsOf t)) ∧
    ∀ a b c : JsString, Utf16.loneSurrogate a = false → Utf16.loneSurrogate b = false →
      Utf16.loneSurrogate c = false →
      ((Units.compareUtf8 a b = .eq ↔ a = b) ∧
        Units.compareUtf8 a b = (Units.compareUtf8 b a).swap ∧
        (Units.compareUtf8 a b = .lt → Units.compareUtf8 b c = .lt →
          Units.compareUtf8 a c = .lt)) ∧
      Units.compareUtf8 a b = compareNats ((Utf16.encodeUtf8 a).map UInt8.toNat)
        ((Utf16.encodeUtf8 b).map UInt8.toNat) := by
  refine ⟨fun facts facts' hv hv' hsame => ?_, fun f g hf hg h => ?_,
    fun s t => (Units.compareUtf8_unitsOf s t).symm, fun a b c ha hb hc => ?_⟩
  · obtain ⟨m, h, h'⟩ := deriveContinuity_eq_of_mem_iff hv hv' hsame
    exact ⟨m, m, h, h', rfl, rfl, fun _ => rfl, fun _ _ => rfl, fun _ _ => rfl, fun _ => rfl,
      fun _ _ => rfl, fun _ => rfl, fun _ => rfl⟩
  · rw [factIdentity_of_valid hf, factIdentity_of_valid hg] at h
    exact identityOf_injective (Except.ok.inj h)
  · exact ⟨Units.compareUtf8_total ha hb hc, Units.compareUtf8_bytes ha hb⟩

/-- The smallest diamond, told backwards and with a repetition. -/
theorem continuity_ignores_arrival_bothRotated :
    ∃ m m', deriveContinuity bothRotated = .ok m ∧
      deriveContinuity (bothRotated.reverse ++ bothRotated) = .ok m' ∧ SameAnswers m m' := by
  refine continuity_ignores_arrival.1 _ _ bothRotated_valid (fun f hf => ?_) fun f => ?_
  · refine bothRotated_valid f ?_
    rcases List.mem_append.mp hf with hf | hf
    · exact List.mem_reverse.mp hf
    · exact hf
  · rw [List.mem_append, List.mem_reverse, or_self]

end Estoc.Continuity
