import Estoc.Lib.Checked
import Estoc.Continuity.Stages

/-!
# More facts never lift a contradiction

Each stage below the usable graph grows with the facts: the positive links
(`derive_mono`), the contexts they connect, the disputes within a context, the
cycles and the collisions. So does what conflicts reach, and with it every
answer that is `conflict` because a channel is reached. The usable answers do
not grow, which is why nothing here says so.
-/

namespace Estoc.Continuity

set_option linter.unusedSectionVars false

theorem leads_any_iff {g : Graph FactIdentity} {a b : Channel} :
    g.Leads none a b ↔ ∃ side, g.Leads (some side) a b := by
  constructor
  · rintro ⟨e, he, hf, ht, _⟩
    exact ⟨e.replaces, e, he, hf, ht, ofKind_some.mpr rfl⟩
  · rintro ⟨_, h⟩
    exact h.any

/-- A graph and claims within another. -/
structure Smaller (entries : Entries) (g : Graph FactIdentity) (entries' : Entries)
    (g' : Graph FactIdentity) : Prop where
  entry : ∀ {e}, e ∈ entries → e ∈ entries'
  leads : ∀ {side a b}, g.Leads (some side) a b → g'.Leads (some side) a b
  vertices : ∀ {c}, c ∈ g.vertices → c ∈ g'.vertices

namespace Smaller

variable {entries entries' : Entries} {g g' : Graph FactIdentity}

theorem any (h : Smaller entries g entries' g') {a b : Channel} (hl : g.Leads none a b) :
    g'.Leads none a b := by
  obtain ⟨side, hl⟩ := leads_any_iff.mp hl
  exact leads_any_iff.mpr ⟨side, h.leads hl⟩

theorem same (h : Smaller entries g entries' g') {side : Side} {a b : Channel}
    (hs : Same g side a b) : Same g' side a b :=
  Relation.EqvGen.mono (fun _ _ hl => h.leads hl) _ _ hs

theorem claims (h : Smaller entries g entries' g') {side : Side} {e : Entry} {claim : Claim}
    (hc : Claims entries side e claim) : Claims entries' side e claim :=
  ⟨h.entry hc.1, hc.2⟩

theorem reaches (h : Smaller entries g entries' g') {a b : Channel}
    (hr : g.Reaches none a b) : g'.Reaches none a b :=
  Relation.ReflTransGen.mono (fun _ _ hl => h.any hl) _ _ hr

/-- What a conflict reaches stays reached. -/
theorem affected (h : Smaller entries g entries' g') {c : Channel}
    (ha : Affected entries g c) : Affected entries' g' c := by
  have hcompetes : ∀ {side}, Competes entries g side c → Competes entries' g' side c := by
    rintro side ⟨a, ⟨e₁, c₁, e₂, c₂, hc₁, hc₂, hs₁, hs₂, hne⟩, hcase⟩
    refine ⟨a, ⟨e₁, c₁, e₂, c₂, h.claims hc₁, h.claims hc₂, h.same hs₁, h.same hs₂, hne⟩, ?_⟩
    rcases hcase with ⟨hv, hs⟩ | ⟨e, claim, hc, hs, hto⟩
    · exact Or.inl ⟨h.vertices hv, h.same hs⟩
    · exact Or.inr ⟨e, claim, h.claims hc, h.same hs, hto⟩
  rcases ha with hp | hl | ⟨d, hne, hcd, hdc⟩ | ⟨channels, ⟨a, b, d, hch, hl, hp, he⟩, hc⟩
  · exact Or.inl (hcompetes hp)
  · exact Or.inr (Or.inl (hcompetes hl))
  · exact Or.inr (Or.inr (Or.inl ⟨d, hne, h.reaches hcd, h.reaches hdc⟩))
  · exact Or.inr (Or.inr (Or.inr ⟨channels, ⟨a, b, d, hch, h.leads hl, h.leads hp, he⟩, hc⟩))

end Smaller

namespace Model

variable {entries entries' : Entries}

theorem positive_smaller (hE : entries.Wf) (hE' : entries'.Wf)
    (hsub : ∀ {e}, e ∈ entries → e ∈ entries') :
    Smaller entries (ofEntries entries).positive entries' (ofEntries entries').positive where
  entry := hsub
  leads h := by
    rw [positive_leads] at h ⊢
    exact derive_mono hE hE' ⟨fun he _ => ⟨hsub he, rfl⟩, fun _ => rfl⟩ h
  vertices := by
    intro c hc
    rcases mem_positive_vertices.mp hc with hc | ⟨e, he, hc⟩
    · -- an end of a link stays one
      refine mem_positive_vertices.mpr (Or.inl ?_)
      obtain ⟨x, hx, hxc⟩ := (positive_spec hE).touched hc
      obtain ⟨y, hy, hyf, hyt, _⟩ := derive_mono hE hE'
        ⟨fun he _ => ⟨hsub he, rfl⟩, fun _ => rfl⟩ ⟨x, hx, rfl, rfl, ofKind_some.mpr rfl⟩
      have hends := (positive_spec hE').ends hy
      rw [hyf, hyt] at hends
      rcases hxc with rfl | rfl
      · exact hends.1
      · exact hends.2
    · exact mem_positive_vertices.mpr (Or.inr ⟨e, hsub he, hc⟩)

theorem affected_mono (hE : entries.Wf) (hE' : entries'.Wf)
    (hsub : ∀ {e}, e ∈ entries → e ∈ entries') {c : Channel}
    (h : (ofEntries entries).affected c = true) : (ofEntries entries').affected c = true :=
  (affected_iff hE').mpr ((positive_smaller hE hE' hsub).affected ((affected_iff hE).mp h))

/-- What is clear over more facts is clear over fewer. -/
theorem clear_anti (hE : entries.Wf) (hE' : entries'.Wf)
    (hsub : ∀ {e}, e ∈ entries → e ∈ entries') {e : Entry}
    (h : (ofEntries entries').clear e = true) : (ofEntries entries).clear e = true := by
  rw [clear_iff] at h ⊢
  exact fun c hc ha => h c hc (affected_mono hE hE' hsub ha)

theorem affected_iff_scope {m : Model} {c : Channel} :
    m.affected c = true ↔ ∃ conflict ∈ m.conflicts, c ∈ conflict.scope := by
  rw [affected, affectedIn, List.any_eq_true]
  simp only [conflicts, List.mem_map, exists_exists_and_eq_and, decide_eq_true_eq]

/-! ## Answers that are a conflict -/

theorem path_conflict_iff (hE : entries.Wf) {a b : Channel} :
    (∃ facts, (ofEntries entries).path a b = .conflict facts) ↔
      (ofEntries entries).affected a = true ∨ (ofEntries entries).affected b = true := by
  have hempty : (ofEntries entries).conflictFactsAt a ∪ (ofEntries entries).conflictFactsAt b = ∅ ↔
      ¬ ((ofEntries entries).affected a = true ∨ (ofEntries entries).affected b = true) := by
    rw [Finset.union_eq_empty, conflictFactsAt_eq_empty hE, conflictFactsAt_eq_empty hE, not_or]
  rw [path]
  split
  · next h => exact iff_of_true ⟨_, rfl⟩ (not_not.mp fun hn => h (hempty.mpr hn))
  · next h =>
    refine iff_of_false ?_ (hempty.mp (not_not.mp h))
    rintro ⟨facts, hf⟩
    split at hf
    · cases hf
    · split at hf <;> cases hf

theorem confirmation_conflict_iff (hE : entries.Wf) {l p : Did} :
    (∃ facts, (ofEntries entries).confirmation l p = .conflict facts) ↔
      (ofEntries entries).affected ⟨l, p⟩ = true := by
  have hempty := @conflictFactsAt_eq_empty entries hE ⟨l, p⟩
  rw [confirmation]
  simp only
  split
  · next h => exact iff_of_true ⟨_, rfl⟩ (not_not.mp fun hn => h (hempty.mpr hn))
  · next h =>
    refine iff_of_false ?_ (hempty.mp (not_not.mp h))
    rintro ⟨facts, hf⟩
    split at hf <;> cases hf

theorem statusOf_conflict_iff (hE : entries.Wf) {e : Entry} :
    (∃ facts because, (ofEntries entries).statusOf e = .conflict facts because) ↔
      ¬ (ofEntries entries).clear e = true := by
  have hempty := @conflictingWith_eq_empty entries hE e
  rw [statusOf]
  split
  · next h => exact iff_of_true ⟨_, _, rfl⟩ fun hn => h (hempty.mpr hn)
  · next h =>
    refine iff_of_false ?_ (not_not.mpr (hempty.mp (not_not.mp h)))
    rintro ⟨facts, because, hf⟩
    split at hf
    · split at hf
      · cases hf
      · split at hf <;> cases hf
    · cases hf

/-- The status of a fact is that of its entry, when it has one. -/
theorem status_eq (hE : entries.Wf) {f : ContinuityFact} {s : FactStatus} (hs : s ≠ .unknown) :
    (ofEntries entries).status f = .ok s ↔
      ∃ e ∈ entries, e.fact = f ∧ (ofEntries entries).statusOf e = s := by
  have hentries : (ofEntries entries).entries = entries := rfl
  constructor
  · intro h
    rw [status] at h
    by_cases hv : f.Valid
    · rw [validateFact_of_valid hv, Checked.ok_bind] at h
      split at h
      · exact absurd (Except.ok.inj h).symm hs
      · next e hfind =>
        rw [hentries] at hfind
        have he := List.mem_of_find?_eq_some hfind
        have hid : e.identity = identityOf f := by simpa using List.find?_some hfind
        rw [hE.identity he] at hid
        exact ⟨e, he, identityOf_injective hid, Except.ok.inj h⟩
    · obtain ⟨err, herr⟩ := validateFact_of_not_valid hv "fact"
      rw [herr] at h
      cases h
  · rintro ⟨e, he, rfl, rfl⟩
    rw [status, validateFact_of_valid (hE.valid he), Checked.ok_bind]
    have hfind : (ofEntries entries).entries.find? (fun x => x.identity = identityOf e.fact) =
        some e := by
      rw [hentries]
      cases hf : entries.find? (fun x => x.identity = identityOf e.fact) with
      | none =>
          have := List.find?_eq_none.mp hf e he
          rw [hE.identity he] at this
          simp at this
      | some x =>
          have hx : x.identity = identityOf e.fact := by simpa using List.find?_some hf
          rw [← hE.identity he] at hx
          rw [hE.eq_of_identity (List.mem_of_find?_eq_some hf) he hx]
    rw [hfind]
    rfl

end Model

/-! ## The result -/

/-- More facts never lift a contradiction: positive links stay, channels a
conflict reaches stay reached, and a status, a path or a confirmation that
answers `conflict` still does. Within one set of facts the usable links are
positive links of the same side that touch no channel a conflict reaches. -/
theorem conflicts_persist (facts facts' : List ContinuityFact)
    (hvalid : ∀ f ∈ facts', f.Valid) (hsub : ∀ f ∈ facts, f ∈ facts') :
    ∃ m m', deriveContinuity facts = .ok m ∧ deriveContinuity facts' = .ok m' ∧
      (∀ x ∈ m.positive.edges, ∃ y ∈ m'.positive.edges,
        y.from = x.from ∧ y.to = x.to ∧ y.replaces = x.replaces) ∧
      (∀ c, (∃ conflict ∈ m.conflicts, c ∈ conflict.scope) →
        ∃ conflict ∈ m'.conflicts, c ∈ conflict.scope) ∧
      (∀ f involved because, m.status f = .ok (.conflict involved because) →
        ∃ involved' because', m'.status f = .ok (.conflict involved' because')) ∧
      (∀ a b involved, m.path a b = .conflict involved →
        ∃ involved', m'.path a b = .conflict involved') ∧
      (∀ l p involved, m.confirmation l p = .conflict involved →
        ∃ involved', m'.confirmation l p = .conflict involved') ∧
      ∀ x ∈ m.usable.edges, (∃ y ∈ m.positive.edges,
          y.from = x.from ∧ y.to = x.to ∧ y.replaces = x.replaces) ∧
        ∀ conflict ∈ m.conflicts, x.from ∉ conflict.scope ∧ x.to ∉ conflict.scope := by
  obtain ⟨entries, hof, hm⟩ := deriveContinuity_spec fun f hf => hvalid f (hsub f hf)
  obtain ⟨entries', hof', hm'⟩ := deriveContinuity_spec hvalid
  have hE := hof.wf
  have hE' := hof'.wf
  have hentries : ∀ {e}, e ∈ entries → e ∈ entries' := hof.subset hof' hsub
  have haffected := fun {c} => @Model.affected_mono entries entries' hE hE' hentries c
  refine ⟨_, _, hm, hm', ?_, ?_, ?_, ?_, ?_, ?_⟩
  · intro x hx
    obtain ⟨y, hy, hf, ht, hk⟩ := (Model.positive_smaller hE hE' hentries).leads
      ⟨x, hx, rfl, rfl, ofKind_some.mpr rfl⟩
    exact ⟨y, hy, hf, ht, ofKind_some.mp hk⟩
  · intro c hc
    rw [← Model.affected_iff_scope] at hc ⊢
    exact haffected hc
  · intro f involved because hs
    obtain ⟨e, he, rfl, hst⟩ := (Model.status_eq hE (by simp)).mp hs
    have hclear := (Model.statusOf_conflict_iff hE).mp ⟨_, _, hst⟩
    obtain ⟨involved', because', hst'⟩ := (Model.statusOf_conflict_iff hE').mpr
      fun h => hclear (Model.clear_anti hE hE' hentries h)
    exact ⟨involved', because', (Model.status_eq hE' (by simp)).mpr ⟨e, hentries he, rfl, hst'⟩⟩
  · intro a b involved hp
    exact (Model.path_conflict_iff hE').mpr
      (((Model.path_conflict_iff hE).mp ⟨_, hp⟩).imp haffected haffected)
  · intro l p involved hp
    exact (Model.confirmation_conflict_iff hE').mpr
      (haffected ((Model.confirmation_conflict_iff hE).mp ⟨_, hp⟩))
  · intro x hx
    obtain ⟨y, hy, hf, ht, hk⟩ := Model.positive_of_usable hE
      ⟨x, hx, rfl, rfl, ofKind_some.mpr rfl⟩
    obtain ⟨hfrom, hto⟩ := Model.unaffected_of_usable hE hx
    rw [Model.affected_iff_scope] at hfrom hto
    exact ⟨⟨y, hy, hf, ht, ofKind_some.mp hk⟩, fun conflict hc =>
      ⟨fun h => hfrom ⟨conflict, hc, h⟩, fun h => hto ⟨conflict, hc, h⟩⟩⟩

/-- A second choice for a pair adds to the diamond, whose links stay. -/
theorem conflicts_persist_chosenTwice :
    ∃ m m', deriveContinuity bothRotated = .ok m ∧ deriveContinuity chosenTwice = .ok m' ∧
      ∀ x ∈ m.positive.edges, ∃ y ∈ m'.positive.edges,
        y.from = x.from ∧ y.to = x.to ∧ y.replaces = x.replaces := by
  obtain ⟨m, m', hm, hm', hlinks, _⟩ := conflicts_persist bothRotated chosenTwice
    chosenTwice_valid fun f hf => List.mem_cons_of_mem _ hf
  exact ⟨m, m', hm, hm', hlinks⟩

end Estoc.Continuity
