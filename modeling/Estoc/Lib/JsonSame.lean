import Estoc.Lib.JsonRead

/-!
# When two values are the same

Two texts may list the members of an object in different orders and spell a zero with
its sign or without: `Same` says which values are the same nevertheless. The canonical
form decides it for values whose objects name each member once. `nesting` counts the
containers that stand inside one another.
-/

set_option linter.unusedSectionVars false

open Utf16 (JsString)

namespace Json

/-- Every object in the value names each of its members once. -/
inductive Distinct : Json → Prop where
  | scalar (s : Scalar) : Distinct (.scalar s)
  | array {items : List Json} : (∀ v ∈ items, Distinct v) → Distinct (.array items)
  | object {members : List (JsString × Json)} : (members.map Prod.fst).Nodup →
      (∀ m ∈ members, Distinct m.2) → Distinct (.object members)

/-- The same value: the items of an array in order, the members of an object in any
order, a zero of either sign. -/
inductive Same : Json → Json → Prop where
  | scalar (s : Scalar) : Same (.scalar s) (.scalar s)
  | zero {x y : Binary64} : x = .zero ∨ x = .negZero → y = .zero ∨ y = .negZero →
      Same (.scalar (.number x)) (.scalar (.number y))
  | array {items items' : List Json} : items.length = items'.length →
      (∀ p ∈ items.zip items', Same p.1 p.2) → Same (.array items) (.array items')
  | object {members members' ordered ordered' : List (JsString × Json)} :
      members.Perm ordered → members'.Perm ordered' →
      ordered.map Prod.fst = ordered'.map Prod.fst →
      (∀ p ∈ ordered.zip ordered', Same p.1.2 p.2.2) → Same (.object members) (.object members')

mutual

/-- How many containers stand inside one another. -/
def nesting : Json → Nat
  | .scalar _ => 0
  | .array items => nestingItems items + 1
  | .object members => nestingMembers members + 1

def nestingItems : List Json → Nat
  | [] => 0
  | v :: vs => max (nesting v) (nestingItems vs)

def nestingMembers : List (JsString × Json) → Nat
  | [] => 0
  | (_, v) :: ms => max (nesting v) (nestingMembers ms)

end

theorem nestingItems_le {items : List Json} {n : Nat} :
    nestingItems items ≤ n ↔ ∀ v ∈ items, v.nesting ≤ n := by
  induction items with
  | nil => simp [nestingItems]
  | cons v vs ih => rw [nestingItems, max_le_iff, ih, List.forall_mem_cons]

theorem nestingMembers_le {members : List (JsString × Json)} {n : Nat} :
    nestingMembers members ≤ n ↔ ∀ m ∈ members, m.2.nesting ≤ n := by
  induction members with
  | nil => simp [nestingMembers]
  | cons m ms ih => rw [nestingMembers, max_le_iff, ih, List.forall_mem_cons]

/-! ## What a text consists of is a value -/

/-- Every text that reads is made of the things some value consists of. -/
structure ReadsAs (N : NumberText) (fuel : Nat) : Prop where
  value : ∀ input ts rest, readValue N fuel input = some (ts, rest) → ∃ v, ts = tokens v
  item : ∀ input ts rest, readItem N fuel input = some (ts, rest) → ∃ vs, ts = tokensItems vs
  member : ∀ input ts rest, readMember N fuel input = some (ts, rest) →
    ∃ ms, ts = tokensMembers ms

section
variable {N : NumberText}

theorem readWord_tokens {input rest : JsString} {ts : List Token}
    (h : readWord N input = some (ts, rest)) : ∃ v, ts = tokens v := by
  rw [readWord] at h
  split at h
  · next w _ => cases h; exact ⟨.scalar w.2, rfl⟩
  · split at h
    · cases h; exact ⟨.scalar (.number _), rfl⟩
    · cases h

theorem readValue_tokens {fuel : Nat} (ih : ReadsAs N fuel) {input rest : JsString}
    {ts : List Token} (h : readValue N (fuel + 1) input = some (ts, rest)) :
    ∃ v, ts = tokens v := by
  rw [readValue] at h
  split at h
  · cases h
  · split at h
    · split at h
      · cases h; exact ⟨.object [], rfl⟩
      · obtain ⟨p, hp, heq⟩ := Option.map_eq_some_iff.mp h
        obtain ⟨ms, hms⟩ := ih.member _ _ _ hp
        cases heq
        exact ⟨.object ms, by rw [tokens, hms]⟩
    · split at h
      · split at h
        · cases h; exact ⟨.array [], rfl⟩
        · obtain ⟨p, hp, heq⟩ := Option.map_eq_some_iff.mp h
          obtain ⟨vs, hvs⟩ := ih.item _ _ _ hp
          cases heq
          exact ⟨.array vs, by rw [tokens, hvs]⟩
      · split at h
        · obtain ⟨p, _, heq⟩ := Option.map_eq_some_iff.mp h
          cases heq
          exact ⟨.scalar (.string p.1), rfl⟩
        · exact readWord_tokens h

theorem readItem_tokens {fuel : Nat} (ih : ReadsAs N fuel) {input rest : JsString}
    {ts : List Token} (h : readItem N (fuel + 1) input = some (ts, rest)) :
    ∃ vs, ts = tokensItems vs := by
  rw [readItem] at h
  obtain ⟨⟨us, after⟩, hvalue, h⟩ := Option.bind_eq_some_iff.mp h
  obtain ⟨v, rfl⟩ := ih.value _ _ _ hvalue
  simp only at h
  split at h
  · cases h
  · split at h
    · obtain ⟨p, hp, heq⟩ := Option.map_eq_some_iff.mp h
      obtain ⟨vs, hvs⟩ := ih.item _ _ _ hp
      cases heq
      exact ⟨v :: vs, by rw [tokensItems, hvs]⟩
    · split at h
      · cases h; exact ⟨[v], rfl⟩
      · cases h

theorem readMember_tokens {fuel : Nat} (ih : ReadsAs N fuel) {input rest : JsString}
    {ts : List Token} (h : readMember N (fuel + 1) input = some (ts, rest)) :
    ∃ ms, ts = tokensMembers ms := by
  rw [readMember] at h
  split at h
  · cases h
  · split at h
    · cases h
    · obtain ⟨⟨name, after⟩, _, h⟩ := Option.bind_eq_some_iff.mp h
      simp only at h
      split at h
      · cases h
      · split at h
        · cases h
        · obtain ⟨⟨us, after⟩, hvalue, h⟩ := Option.bind_eq_some_iff.mp h
          obtain ⟨v, rfl⟩ := ih.value _ _ _ hvalue
          simp only at h
          split at h
          · cases h
          · split at h
            · obtain ⟨p, hp, heq⟩ := Option.map_eq_some_iff.mp h
              obtain ⟨ms, hms⟩ := ih.member _ _ _ hp
              cases heq
              exact ⟨(name, v) :: ms, by rw [tokensMembers, hms]⟩
            · split at h
              · cases h; exact ⟨[(name, v)], rfl⟩
              · cases h

theorem readsAs (fuel : Nat) : ReadsAs N fuel := by
  induction fuel with
  | zero =>
      refine ⟨?_, ?_, ?_⟩
      · intro _ _ _ h; rw [readValue] at h; cases h
      · intro _ _ _ h; rw [readItem] at h; cases h
      · intro _ _ _ h; rw [readMember] at h; cases h
  | succ fuel ih =>
      exact ⟨fun _ _ _ h => readValue_tokens ih h, fun _ _ _ h => readItem_tokens ih h,
        fun _ _ _ h => readMember_tokens ih h⟩

/-- A text that reads consists of the things some value consists of. -/
theorem readText_tokens {text : JsString} {ts : List Token} (h : readText N text = some ts) :
    ∃ v, ts = tokens v := by
  rw [readText] at h
  obtain ⟨⟨us, rest⟩, hvalue, h⟩ := Option.bind_eq_some_iff.mp h
  simp only at h
  split at h
  · cases h
    exact (readsAs _).value _ _ _ hvalue
  · cases h

end

/-! ## The canonical form decides it -/

theorem unsigned_eq_iff {x y : Binary64} :
    x.unsigned = y.unsigned ↔
      x = y ∨ ((x = .zero ∨ x = .negZero) ∧ (y = .zero ∨ y = .negZero)) := by
  have hne : Binary64.zero ≠ Binary64.negZero := by decide
  unfold Binary64.unsigned
  split <;> split <;> grind

theorem same_scalar_iff {s t : Scalar} :
    Same (.scalar s) (.scalar t) ↔ canonicalScalar s = canonicalScalar t := by
  constructor
  · intro h
    cases h with
    | scalar => rfl
    | zero hx hy =>
        rw [canonicalScalar, canonicalScalar, unsigned_eq_iff.mpr (.inr ⟨hx, hy⟩)]
  · intro h
    by_cases heq : s = t
    · exact heq ▸ .scalar s
    · cases s <;> cases t <;> simp_all [canonicalScalar]
      next x y =>
        rcases unsigned_eq_iff.mp h with rfl | ⟨hx, hy⟩
        · exact absurd rfl heq
        · exact .zero hx hy

/-- Lists that go together item by item have one image. -/
theorem map_eq_map_of_zip {α β : Type} {f : α → β} {l l' : List α} (hlen : l.length = l'.length)
    (h : ∀ p ∈ l.zip l', f p.1 = f p.2) : l.map f = l'.map f := by
  induction l generalizing l' with
  | nil => rw [List.length_eq_zero_iff.mp hlen.symm]
  | cons a l ih =>
      cases l' with
      | nil => cases hlen
      | cons b l' =>
          rw [List.zip_cons_cons, List.forall_mem_cons] at h
          rw [List.map_cons, List.map_cons, h.1, ih (Nat.succ.inj hlen) h.2]

theorem zip_of_map_eq_map {α β : Type} {f : α → β} {l l' : List α} (h : l.map f = l'.map f) :
    ∀ p ∈ l.zip l', p.1 ∈ l ∧ p.2 ∈ l' ∧ f p.1 = f p.2 := by
  induction l generalizing l' with
  | nil => intro p hp; cases hp
  | cons a l ih =>
      cases l' with
      | nil => intro p hp; cases hp
      | cons b l' =>
          rw [List.map_cons, List.map_cons, List.cons.injEq] at h
          intro p hp
          rcases List.mem_cons.mp hp with rfl | hp
          · exact ⟨List.mem_cons_self, List.mem_cons_self, h.1⟩
          · obtain ⟨h1, h2, h3⟩ := ih h.2 p hp
            exact ⟨List.mem_cons_of_mem _ h1, List.mem_cons_of_mem _ h2, h3⟩

theorem map_fst_canonicalMember (ms : List (JsString × Json)) :
    (ms.map canonicalMember).map Prod.fst = ms.map Prod.fst := by
  rw [List.map_map]
  rfl

/-- Members of different names have one order by name. -/
theorem sortBy_eq_of_perm_of_nodup {ms ns : List (JsString × Json)}
    (hnodup : (ms.map Prod.fst).Nodup) (h : ms.Perm ns) :
    Cmp.sortBy compareNames ms = Cmp.sortBy compareNames ns := by
  refine Cmp.eq_of_sorted (fun a ha b hb hab => ?_)
    (((Cmp.sortBy_perm ms).trans h).trans (Cmp.sortBy_perm ns).symm)
    (Cmp.sortBy_sorted ms) (Cmp.sortBy_sorted ns)
  have hname : a.1 = b.1 := @Std.LawfulEqCmp.eq_of_compare _ compareUnits _ _ _ hab
  exact List.inj_on_of_nodup_map hnodup (Cmp.mem_sortBy.mp ha) (Cmp.mem_sortBy.mp hb) hname

theorem Same.canonical_eq {v w : Json} (h : Same v w) (hv : v.Distinct) (hw : w.Distinct) :
    v.canonical = w.canonical := by
  induction h with
  | scalar s => rfl
  | zero hx hy =>
      rw [canonical, canonical, canonicalScalar, canonicalScalar,
        unsigned_eq_iff.mpr (.inr ⟨hx, hy⟩)]
  | array hlen _ ih =>
      cases hv with
      | array hv =>
      cases hw with
      | array hw =>
      rw [canonical, canonical, canonicalItems_eq_map, canonicalItems_eq_map]
      refine congrArg Json.array (map_eq_map_of_zip hlen fun p hp => ?_)
      have hmem := List.of_mem_zip hp
      exact ih p hp (hv _ hmem.1) (hw _ hmem.2)
  | @object ms ms' os os' hperm hperm' hnames _ ih =>
      cases hv with
      | object hv hvs =>
      cases hw with
      | object hw hws =>
      have hord : os.map canonicalMember = os'.map canonicalMember := by
        refine map_eq_map_of_zip (by simpa using congrArg List.length hnames) fun p hp => ?_
        have hmem := List.of_mem_zip hp
        refine Prod.ext (zip_of_map_eq_map hnames p hp).2.2 (ih p hp ?_ ?_)
        · exact hvs _ (hperm.mem_iff.mpr hmem.1)
        · exact hws _ (hperm'.mem_iff.mpr hmem.2)
      rw [canonical, canonical, canonicalMembers_eq_map, canonicalMembers_eq_map,
        sortBy_eq_of_perm_of_nodup (by rwa [map_fst_canonicalMember]) (hperm.map canonicalMember),
        @sortBy_eq_of_perm_of_nodup (ms'.map canonicalMember) _
          (by rwa [map_fst_canonicalMember]) (hperm'.map canonicalMember), hord]

theorem same_of_canonical_eq {v : Json} : ∀ {w : Json}, v.canonical = w.canonical → Same v w := by
  induction v using ind with
  | scalar s =>
      intro w h
      cases w with
      | scalar t => exact same_scalar_iff.mpr (Json.scalar.inj h)
      | array => cases h
      | object => cases h
  | array items ih =>
      intro w h
      cases w with
      | scalar => cases h
      | object => cases h
      | array items' =>
          rw [canonical, canonical, canonicalItems_eq_map, canonicalItems_eq_map,
            Json.array.injEq] at h
          refine .array (by simpa using congrArg List.length h) fun p hp => ?_
          obtain ⟨hmem, _, heq⟩ := zip_of_map_eq_map h p hp
          exact ih _ hmem heq
  | object members ih =>
      intro w h
      cases w with
      | scalar => cases h
      | array => cases h
      | object members' =>
          rw [canonical, canonical, canonicalMembers_eq_map, canonicalMembers_eq_map,
            Json.object.injEq, sortBy_canonicalMember, sortBy_canonicalMember] at h
          refine .object (@Cmp.sortBy_perm _ compareNames members).symm
            (@Cmp.sortBy_perm _ compareNames members').symm ?_ fun p hp => ?_
          · rw [← map_fst_canonicalMember, h, map_fst_canonicalMember]
          · obtain ⟨hmem, _, heq⟩ := zip_of_map_eq_map h p hp
            exact ih _ (Cmp.mem_sortBy.mp hmem) (congrArg Prod.snd heq)

/-- Two values are the same exactly when their canonical forms are equal. -/
theorem same_iff_canonical {v w : Json} (hv : v.Distinct) (hw : w.Distinct) :
    Same v w ↔ v.canonical = w.canonical :=
  ⟨fun h => h.canonical_eq hv hw, same_of_canonical_eq⟩

end Json
