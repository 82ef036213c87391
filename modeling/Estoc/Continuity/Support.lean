import Estoc.Continuity.Queries

/-!
# The support re-derives

A model over some of the facts of another has fewer conflicts, so what was clear
stays clear and what was unaffected stays unaffected (`clear_anti`,
`affected_mono`). `kept_supported` says that this is all a usable link needs
besides the facts it rests on: over any of the facts that include its support,
the link is usable again. Supports are unions over the rules that made the
link, so the proof is one case for each rule. The answers that carry a support
follow: the facts named in it are enough for the answer.
-/

namespace Estoc.Continuity

set_option linter.unusedSectionVars false

/-- Some of the entries, which include those of the facts. -/
structure Covering (entries : Entries) (s : Finset FactIdentity) (entries' : Entries) :
    Prop where
  wf : entries'.Wf
  subset : ∀ {e}, e ∈ entries' → e ∈ entries
  covers : ∀ i ∈ s, ∃ e ∈ entries', e.identity = i

theorem Covering.mono {entries entries' : Entries} {s t : Finset FactIdentity}
    (h : Covering entries t entries') (hst : s ⊆ t) : Covering entries s entries' :=
  ⟨h.wf, h.subset, fun i hi => h.covers i (hst hi)⟩

/-- An entry is there when its identity is covered. -/
theorem Covering.entry {entries entries' : Entries} {s : Finset FactIdentity}
    (hE : entries.Wf) (h : Covering entries s entries') {e : Entry} (he : e ∈ entries)
    (hi : e.identity ∈ s) : e ∈ entries' := by
  obtain ⟨e', he', hid⟩ := h.covers _ hi
  rwa [← hE.eq_of_identity (h.subset he') he hid]

theorem trail_reaches_in {g g' : Graph FactIdentity} {side : Side} :
    ∀ {es : List (Edge FactIdentity)} {a c : Channel}, g.Trail (some side) a es c →
      (∀ x ∈ es, g'.Leads (some x.replaces) x.from x.to) → g'.Reaches (some side) a c
  | [], _, _, h, _ => by cases h; exact .refl
  | x :: es, _, _, ⟨_, hf, hk, h⟩, hall => by
      have hx := hall x List.mem_cons_self
      rw [ofKind_some.mp hk, hf] at hx
      exact .head hx (trail_reaches_in h fun y hy => hall y (List.mem_cons_of_mem _ hy))

section Supported

variable {entries : Entries}

/-- The link is usable over any of the facts that include its support. -/
def Supported (entries : Entries) (a b : Channel) (side : Side) (s : Finset FactIdentity) :
    Prop :=
  ∀ entries', Covering entries s entries' →
    (Model.ofEntries entries').usable.Leads (some side) a b

/-- What confirms a decision over all the facts confirms it over any of them that
include the observation and the links to its peer. -/
theorem confirmed_of_supported (hE : entries.Wf) {entries' : Entries}
    {s : Finset FactIdentity} (hcov : Covering entries s entries')
    {g : Graph FactIdentity} {K : List Channel → Finset FactIdentity → Prop}
    (hg : Graph.Sound (fun a b side s => Supported entries a b side s) K g)
    {o : Entry} (ho : o ∈ entries) (hoc : (Model.ofEntries entries).clear o = true)
    (hobs : o.Observes o.fact.at) {a c : Channel} {es : List (Edge FactIdentity)}
    (hol : o.fact.at.localDid = a.localDid) (htrail : g.Trail (some .peer) a es c)
    (hp : o.fact.at.peerDid = c.peerDid) (hsub : insert o.identity (supportOf es) ⊆ s) :
    Confirmed (entries'.writersOf (Model.ofEntries entries').clear)
      (Model.ofEntries entries').usable a := by
  have ho' := hcov.entry hE ho (hsub (Finset.mem_insert_self _ _))
  have hoc' := Model.clear_anti hcov.wf hE hcov.subset hoc
  refine ⟨o, mem_writersOf.mpr ⟨ho', hoc', hobs⟩, hol, c, ?_, hp⟩
  refine trail_reaches_in htrail fun x hx => ?_
  refine hg.edge (Graph.mem_edges.mp (htrail.mem x hx).1) entries' (hcov.mono fun i hi => ?_)
  exact hsub (Finset.mem_insert_of_mem (mem_supportOf.mpr ⟨x, hx, hi⟩))

theorem unaffected_anti (hE : entries.Wf) {entries' : Entries} {s : Finset FactIdentity}
    (hcov : Covering entries s entries') {c : Channel}
    (h : (Model.ofEntries entries).unaffected c = true) :
    (Model.ofEntries entries').unaffected c = true := by
  rw [Model.unaffected, Bool.not_eq_true', ← Bool.not_eq_true] at h ⊢
  exact fun ha => h (Model.affected_mono hcov.wf hE hcov.subset ha)

theorem kept_supported (hE : entries.Wf) :
    Kept entries (Model.ofEntries entries).clear (Model.ofEntries entries).unaffected
      (fun a b side s => Supported entries a b side s) (fun _ _ => True) where
  rules :=
    { union := fun h _ entries' hcov => h entries' (hcov.mono Finset.subset_union_left)
      join := by
        intro a b d s t h h' hne hadm
        have hboth : ∀ entries', Covering entries (s ∪ t) entries' → _ := fun entries' hcov =>
          (Model.usable_spec hcov.wf).join (h entries' (hcov.mono Finset.subset_union_left))
            (h' entries' (hcov.mono Finset.subset_union_right)) hne
            (unaffected_anti hE hcov hadm)
        exact ⟨fun entries' hcov => (hboth entries' hcov).1,
          fun entries' hcov => (hboth entries' hcov).2⟩
      collision := fun _ _ _ => trivial }
  peer he hc hl ha hb entries' hcov :=
    (Model.usable_spec hcov.wf).peer (hcov.entry hE he (Finset.mem_singleton_self _))
      (Model.clear_anti hcov.wf hE hcov.subset hc) hl (unaffected_anti hE hcov ha)
      (unaffected_anti hE hcov hb)
  decision he hc hl ha hb ho hoc hobs hol hg htrail hp hsub _ entries' hcov := by
    have hconf := confirmed_of_supported hE hcov hg ho hoc hobs hol htrail hp
      (hsub.trans (Finset.subset_insert _ _))
    obtain ⟨support, hadm⟩ := (Model.usable_spec hcov.wf).decision
      (hcov.entry hE he (Finset.mem_insert_self _ _))
      (Model.clear_anti hcov.wf hE hcov.subset hc) hl hconf
    exact (Model.usable_spec hcov.wf).admitted hadm (unaffected_anti hE hcov ha)
      (unaffected_anti hE hcov hb)

/-- A usable link is usable over the facts it rests on. -/
theorem usable_supported (hE : entries.Wf) {x : Edge FactIdentity}
    (hx : x ∈ (Model.ofEntries entries).usable.edges) :
    Supported entries x.from x.to x.replaces x.support :=
  (derive_induction (kept_supported hE)).1 hx

/-- A decision admitted is admitted over the facts it rests on. -/
theorem admitted_supported (hE : entries.Wf) {l : Link FactIdentity}
    {support : Finset FactIdentity}
    (h : (l, support) ∈ (derive entries (Model.ofEntries entries).clear
      (Model.ofEntries entries).unaffected).admitted)
    {entries' : Entries} (hcov : Covering entries (insert l.identity support) entries') :
    ∃ support', (l, support') ∈ (derive entries' (Model.ofEntries entries').clear
      (Model.ofEntries entries').unaffected).admitted := by
  obtain ⟨e, he, hc, hl, hid⟩ := (Model.usable_spec hE).admitted_entry h
  obtain ⟨g, hg, hconf⟩ := (derive_induction (kept_supported hE)).2.2 h
  obtain ⟨⟨o, ho, hol, c, es, htrail, hp, hsub⟩, _⟩ := confirming_some hconf
  obtain ⟨hoe, hoc, hobs⟩ := mem_writersOf.mp ho
  have hconfirmed := confirmed_of_supported hE hcov hg hoe hoc hobs hol htrail hp
    (hsub.trans (Finset.subset_insert _ _))
  obtain ⟨support', hadm⟩ := (Model.usable_spec hcov.wf).decision
    (hcov.entry hE he (hid ▸ Finset.mem_insert_self _ _))
    (Model.clear_anti hcov.wf hE hcov.subset hc) hl hconfirmed
  rw [← hid] at hadm
  exact ⟨support', hadm⟩

/-- The facts of a set of identities, as a model over them has them. -/
theorem deriveContinuity_factsOf {facts : List ContinuityFact} (hof : EntriesOf facts entries)
    {s : Finset FactIdentity} (hs : ∀ i ∈ s, ∃ e ∈ entries, e.identity = i) :
    ∃ entries', Covering entries s entries' ∧
      deriveContinuity ((Model.ofEntries entries).factsOf s) =
        .ok (Model.ofEntries entries') := by
  have hmem : ∀ {f}, f ∈ (Model.ofEntries entries).factsOf s ↔
      ∃ e ∈ entries, e.identity ∈ s ∧ e.fact = f := by
    intro f
    rw [Model.factsOf, Entries.factsOf, List.mem_map]
    simp only [List.mem_filter, decide_eq_true_eq, and_assoc]
    rfl
  obtain ⟨entries', hof', hm'⟩ := @deriveContinuity_spec
    ((Model.ofEntries entries).factsOf s) (by
      intro f hf
      obtain ⟨e, he, _, rfl⟩ := hmem.mp hf
      exact hof.wf.valid he)
  refine ⟨entries', ⟨hof'.wf, ?_, ?_⟩, hm'⟩
  · intro e he
    obtain ⟨f, hf, rfl⟩ := hof'.mem.mp he
    obtain ⟨e', he', _, rfl⟩ := hmem.mp hf
    rw [← hof.wf.entry he']
    exact he'
  · intro i hi
    obtain ⟨e, he, rfl⟩ := hs i hi
    exact ⟨e, hof'.mem.mpr ⟨e.fact, hmem.mpr ⟨e, he, hi, rfl⟩, hof.wf.entry he⟩, rfl⟩

/-- What edges rest on are facts of the model. -/
theorem supportOf_cites (hE : entries.Wf) {es : List (Edge FactIdentity)}
    (hes : ∀ x ∈ es, x ∈ (Model.ofEntries entries).usable.edges) :
    ∀ i ∈ supportOf es, ∃ e ∈ entries, e.identity = i := by
  intro i hi
  obtain ⟨x, hx, hi⟩ := mem_supportOf.mp hi
  obtain ⟨e, he, _, hid⟩ := ((Model.usable_spec hE).sane (hes x hx)).cites i hi
  exact ⟨e, he, hid⟩

end Supported

namespace Model

variable {entries : Entries}

/-- A path is answered where no conflict reaches its ends and usable links lead
from the one, which the model knows, to the other. -/
theorem path_of_reaches (hE : entries.Wf) {a b : Channel}
    (ha : (ofEntries entries).unaffected a = true) (hb : (ofEntries entries).unaffected b = true)
    (hk : a ∈ (ofEntries entries).positive.vertices)
    (hr : (ofEntries entries).usable.Reaches none a b) :
    ∃ channels support, (ofEntries entries).path a b = .path channels support := by
  rw [unaffected, Bool.not_eq_true', ← Bool.not_eq_true, ← conflictFactsAt_eq_empty hE] at ha hb
  rw [path]
  simp only [ha, hb, Finset.union_self, ne_eq, not_true_eq_false, if_false]
  rw [if_neg (by simpa [known] using hk)]
  cases hp : (ofEntries entries).usable.path a b with
  | none => exact absurd hr (Graph.path_eq_none.mp hp)
  | some es => exact ⟨_, _, rfl⟩

theorem path_eq_path (hE : entries.Wf) {a b : Channel} {channels : List Channel}
    {support : List ContinuityFact} (h : (ofEntries entries).path a b = .path channels support) :
    (ofEntries entries).unaffected a = true ∧ (ofEntries entries).unaffected b = true ∧
      a ∈ (ofEntries entries).positive.vertices ∧
      ∃ es, (ofEntries entries).usable.Trail none a es b ∧ channels = a :: es.map Edge.to ∧
        support = (ofEntries entries).factsOf (supportOf es) := by
  rw [path] at h
  split at h
  · cases h
  · next hc =>
    rw [ne_eq, not_not, Finset.union_eq_empty, conflictFactsAt_eq_empty hE,
      conflictFactsAt_eq_empty hE] at hc
    split at h
    · cases h
    · next hk =>
      split at h
      · cases h
      · next es hp =>
        cases h
        refine ⟨by simpa [unaffected] using hc.1, by simpa [unaffected] using hc.2,
          by simpa [known] using hk, es, Graph.path_eq_some hp, rfl, rfl⟩

/-- An end of a usable link is a pair the model knows. -/
theorem known_of_usable (hE : entries.Wf) {side : Side} {a b : Channel}
    (h : (ofEntries entries).usable.Leads (some side) a b) :
    a ∈ (ofEntries entries).positive.vertices := by
  obtain ⟨y, hy, hf, _⟩ := positive_of_usable hE h
  exact hf ▸ ((positive_positive hE).ends hy).1

theorem reaches_of_trail {g g' : Graph FactIdentity} :
    ∀ {es : List (Edge FactIdentity)} {a b : Channel}, g.Trail none a es b →
      (∀ x ∈ es, g'.Leads (some x.replaces) x.from x.to) →
      g'.Reaches none a b ∧
        (a :: es.map Edge.to).IsChain (fun x y => (g'.edge? x y).isSome = true)
  | [], _, _, h, _ => by cases h; exact ⟨.refl, List.isChain_singleton _⟩
  | x :: es, _, _, ⟨_, hf, _, h⟩, hall => by
      have hx := hall x List.mem_cons_self
      rw [hf] at hx
      obtain ⟨hr, hc⟩ := reaches_of_trail h fun y hy => hall y (List.mem_cons_of_mem _ hy)
      have hany := hx.any
      obtain ⟨y, hy, hyf, hyt, _⟩ := hx
      refine ⟨.head hany hr, ?_⟩
      rw [List.map_cons]
      refine List.IsChain.cons_cons ?_ hc
      rw [Graph.edge?_eq_some.mpr ⟨hy, hyf, hyt⟩]
      rfl

theorem positive_reaches (hE : entries.Wf) {a b : Channel}
    (h : (ofEntries entries).usable.Reaches none a b) :
    (ofEntries entries).positive.Reaches none a b := by
  refine Relation.ReflTransGen.mono (fun u v huv => ?_) _ _ h
  obtain ⟨side, huv⟩ := leads_any_iff.mp huv
  exact (positive_of_usable hE huv).any

theorem collect_support_cites (hE : entries.Wf) {c : Channel} {i : FactIdentity}
    (h : i ∈ ((ofEntries entries).collect c).support) : ∃ e ∈ entries, e.identity = i := by
  have hedge : ∃ x ∈ (ofEntries entries).usable.edges, i ∈ x.support := by
    obtain ⟨current, _, hi⟩ := (mem_collect (fun _ _ => rfl) rfl).mp h
    by_cases hr : (ofEntries entries).usable.Reaches none c current
    · rcases (mem_collectAt (fun _ _ => rfl) rfl hr).mp hi with
        ⟨e, _, _, hi⟩ | ⟨side, hi⟩ | ⟨r, _, hi⟩
      · rw [collectEdge] at hi
        split at hi
        · next x hx => exact ⟨x, (Graph.edge?_eq_some.mp hx).1, hi⟩
        · split at hi <;> cases hi
      · cases hi
      · obtain ⟨e, claim, d⟩ := r
        rw [collectRotation] at hi
        simp only at hi
        split at hi
        · cases hi
        · split at hi <;> cases hi
    · rw [← Graph.mem_reach, Reach.mem_channels, Bool.not_eq_true] at hr
      rw [collectAt, hr] at hi
      simp only [Bool.not_false, if_true] at hi
      split at hi <;> cases hi
  obtain ⟨x, hx, hi⟩ := hedge
  obtain ⟨e, he, _, hid⟩ := ((usable_spec hE).sane hx).cites i hi
  exact ⟨e, he, hid⟩

theorem admitted_cites (hE : entries.Wf) {l : Link FactIdentity} {s : Finset FactIdentity}
    (h : (l, s) ∈ (derive entries (ofEntries entries).clear
      (ofEntries entries).unaffected).admitted) :
    ∀ i ∈ insert l.identity s, ∃ e ∈ entries, e.identity = i := by
  obtain ⟨e, he, _, _, hid⟩ := (usable_spec hE).admitted_entry h
  obtain ⟨g, hg, hconf⟩ := (derive_induction (@kept_sane entries (ofEntries entries).clear
    (ofEntries entries).unaffected hE)).2.2 h
  intro i hi
  rcases Finset.mem_insert.mp hi with rfl | hi
  · exact ⟨e, he, hid.symm⟩
  · rcases (confirming_some hconf).2 i hi with ⟨o, ho, rfl⟩ | ⟨x, hx, hi⟩
    · exact ⟨o, (mem_writersOf.mp ho).1, rfl⟩
    · obtain ⟨e', he', _, hid'⟩ := (hg.edge (Graph.mem_edges.mp hx)).cites i hi
      exact ⟨e', he', hid'⟩

/-- The links of the usable reach that a head answered names, all of them in its
support. -/
theorem support_of_answered (hE : entries.Wf) {c : Channel} {x : Edge FactIdentity} (hx : x ∈ (ofEntries entries).usable.edges)
    (hr : (ofEntries entries).usable.Reaches none c x.from) :
    x.support ⊆ ((ofEntries entries).collect c).support := by
  intro i hi
  refine (mem_collect (fun _ _ => rfl) rfl).mpr ⟨x.from, positive_reaches hE hr, ?_⟩
  refine (mem_collectAt (fun _ _ => rfl) rfl hr).mpr (Or.inl ?_)
  obtain ⟨y, hy, hyf, hyt, _⟩ := positive_of_usable hE
    ⟨x, hx, rfl, rfl, ofKind_some.mpr rfl⟩
  refine ⟨y, hy, hyf, ?_⟩
  rw [collectEdge, hyf, hyt, Graph.edge?_eq_some.mpr ⟨hx, rfl, rfl⟩]
  exact hi

/-- A walk of usable links over facts that include what the links rest on. -/
theorem path_supported (hE : entries.Wf) {entries' : Entries} {s : Finset FactIdentity}
    (hcov : Covering entries s entries') {a b : Channel} (hne : a ≠ b)
    (ha : (ofEntries entries).unaffected a = true) (hb : (ofEntries entries).unaffected b = true)
    {es : List (Edge FactIdentity)} (htrail : (ofEntries entries).usable.Trail none a es b)
    (hsub : ∀ x ∈ es, x.support ⊆ s) :
    (a :: es.map Edge.to).IsChain
        (fun x y => ((ofEntries entries').usable.edge? x y).isSome = true) ∧
      ∃ channels support, (ofEntries entries').path a b = .path channels support := by
  have hall : ∀ x ∈ es, (ofEntries entries').usable.Leads (some x.replaces) x.from x.to :=
    fun x hx => usable_supported hE (htrail.mem x hx).1 entries' (hcov.mono (hsub x hx))
  obtain ⟨hr, hchain⟩ := reaches_of_trail htrail hall
  refine ⟨hchain, path_of_reaches hcov.wf (unaffected_anti hE hcov ha)
    (unaffected_anti hE hcov hb) ?_ hr⟩
  match es, htrail, hall with
  | [], h, _ => exact absurd h hne
  | x :: _, ⟨_, hf, _, _⟩, hall =>
      have := known_of_usable hcov.wf (hall x List.mem_cons_self)
      rwa [hf] at this

theorem trail_reaches_from {g : Graph FactIdentity} :
    ∀ {es : List (Edge FactIdentity)} {a b : Channel}, g.Trail none a es b →
      ∀ x ∈ es, g.Reaches none a x.from
  | y :: _, _, _, ⟨hy, hf, hk, h⟩, x, hx => by
      rcases List.mem_cons.mp hx with rfl | hx
      · rw [hf]
      · exact .head ⟨y, hy, hf, rfl, hk⟩ (trail_reaches_from h x hx)

/-- No conflict reaches a channel the positive reach of an answered pair has. -/
theorem Answered.unaffected (hE : entries.Wf) {c h : Channel} {support : List ContinuityFact}
    (ha : Answered (ofEntries entries) c h support) {d : Channel}
    (hd : (ofEntries entries).positive.Reaches none c d) :
    ¬ (ofEntries entries).affected d = true := by
  rw [← conflictFactsAt_eq_empty hE, Finset.eq_empty_iff_forall_notMem]
  intro i hi
  have hmem : i ∈ (ofEntries entries).reaching c := by
    rw [Model.reaching, mem_foldr_union]
    exact Or.inl ⟨d, Graph.mem_reach.mpr hd, hi⟩
  rw [ha.reaching] at hmem
  cases hmem

theorem mem_ends {m : Model} {c d : Channel} :
    d ∈ m.ends c ↔ m.usable.Reaches none c d ∧ ¬ ∃ e ∈ m.usable.edges, e.from = d := by
  rw [ends, List.mem_filter, Graph.mem_reach, Bool.not_eq_true', ← Bool.not_eq_true,
    Graph.hasOutgoing_iff]

/-- The observations a confirmation considers. -/
theorem mem_observationsReached {m : Model} {l p : Did} {e : Entry}
    {es : List (Edge FactIdentity)} : (e, es) ∈ m.observationsReached l p ↔
      l ≠ p ∧ e ∈ m.entries ∧ e.Observes e.fact.at ∧ e.fact.at.localDid = l ∧
        (m.usable.reach ⟨l, p⟩ (some .peer)).pathTo e.fact.at = some es := by
  rw [observationsReached]
  split
  · next h => simp [h]
  · next h =>
    simp only [List.mem_filterMap]
    constructor
    · rintro ⟨x, hx, hmap⟩
      match hf : x.fact, hmap with
      | .peerObservation c d, hmap =>
          simp only at hmap
          split at hmap
          · cases hmap
          · next hl =>
            obtain ⟨via, hvia, heq⟩ := Option.map_eq_some_iff.mp hmap
            cases heq
            rw [hf]
            exact ⟨h, hx, ⟨d, hf⟩, not_not.mp hl, hvia⟩
      | .peerEnding _, hmap => cases hmap
      | .localDecision _ _, hmap => cases hmap
    · rintro ⟨_, he, ⟨d, hf⟩, hl, hpath⟩
      refine ⟨e, he, ?_⟩
      match hfact : e.fact, hf with
      | .peerObservation c d, _ =>
          rw [hfact] at hl hpath
          have hl : c.localDid = l := hl
          change (if c.localDid ≠ l then none else _) = _
          rw [if_neg (not_not.mpr hl)]
          change (m.usable.reach ⟨l, p⟩ (some .peer)).pathTo c = some es at hpath
          rw [hpath]
          rfl

/-- A confirmation that is given lists the clear observations considered, each
with its witness. -/
theorem confirmation_eq_confirmed (hE : entries.Wf) {l p : Did}
    {observations : List Confirmation}
    (h : (ofEntries entries).confirmation l p = .confirmed observations) :
    (ofEntries entries).unaffected ⟨l, p⟩ = true ∧ ∀ o ∈ observations, ∃ e es,
      (e, es) ∈ (ofEntries entries).observationsReached l p ∧
        (ofEntries entries).clear e = true ∧ o = (ofEntries entries).witnessed (e, es) := by
  rw [confirmation] at h
  split at h
  · cases h
  · next hc =>
    rw [ne_eq, not_not, conflictFactsAt_eq_empty hE] at hc
    refine ⟨by simpa [Model.unaffected] using hc, ?_⟩
    simp only at h
    split at h
    · cases h
    · cases h
      intro o ho
      obtain ⟨⟨e, es⟩, hmem, rfl⟩ := List.mem_map.mp ho
      obtain ⟨hmem, hclear⟩ := List.mem_filter.mp hmem
      exact ⟨e, es, hmem, hclear, rfl⟩

theorem confirmation_of_observation (hE : entries.Wf) {l p : Did}
    (hc : (ofEntries entries).unaffected ⟨l, p⟩ = true) {e : Entry}
    {es : List (Edge FactIdentity)}
    (he : (e, es) ∈ (ofEntries entries).observationsReached l p)
    (hclear : (ofEntries entries).clear e = true) :
    ∃ observations, (ofEntries entries).confirmation l p = .confirmed observations ∧
      ∃ o ∈ observations, o.fact = e.fact := by
  rw [Model.unaffected, Bool.not_eq_true', ← Bool.not_eq_true, ← conflictFactsAt_eq_empty hE] at hc
  have hmem : (e, es) ∈ ((ofEntries entries).observationsReached l p).filter
      fun q => (ofEntries entries).clear q.1 := List.mem_filter.mpr ⟨he, hclear⟩
  rw [confirmation, if_neg (not_not.mpr hc)]
  simp only
  rw [if_neg fun hempty => by rw [List.isEmpty_iff.mp hempty] at hmem; cases hmem]
  exact ⟨_, rfl, _, List.mem_map_of_mem hmem, rfl⟩

/-- A usable fact is a rotation of ours admitted, or needs nothing but to be
clear. -/
theorem statusOf_usable (hE : entries.Wf) {e : Entry} (he : e ∈ entries)
    {support : List ContinuityFact}
    (h : (ofEntries entries).statusOf e = .usable support) :
    (ofEntries entries).clear e = true ∧
      ((∃ b s, e.Links .local e.fact.at b ∧ support =
          (ofEntries entries).factsOf (insert e.identity s) ∧
          (⟨e.identity, e.fact.at, b⟩, s) ∈ (derive entries (ofEntries entries).clear
            (ofEntries entries).unaffected).admitted) ∨
        (support = [e.fact] ∧ ∀ c d, e.fact ≠ .localDecision c (.rotate d))) := by
  rw [statusOf] at h
  split at h
  · cases h
  · next hc =>
    rw [ne_eq, not_not, conflictingWith_eq_empty hE] at hc
    refine ⟨hc, ?_⟩
    split at h
    · next c d hf =>
      split at h
      · next i s hfind =>
        cases h
        have hid : i = e.identity := by simpa using List.find?_some hfind
        subst hid
        have hmem := List.mem_of_find?_eq_some hfind
        rw [usableAdmitted_eq, List.mem_map] at hmem
        obtain ⟨⟨l, s'⟩, hl, heq⟩ := hmem
        obtain ⟨hli, rfl⟩ := Prod.mk.inj heq
        obtain ⟨x, hx, _, hlinks, hxid⟩ := (usable_spec hE).admitted_entry hl
        -- the candidate is the one of this entry
        obtain rfl := hE.eq_of_identity hx he (hxid.symm.trans hli)
        have hat : l.from = x.fact.at := by
          obtain ⟨claim, hclaim, _, hat, _⟩ := hlinks
          rw [hE.claim hx, hf] at hclaim
          cases hclaim
          rw [hf]
          exact hat.symm
        refine Or.inl ⟨l.to, s', hat ▸ hlinks, rfl, ?_⟩
        obtain ⟨li, lf, lt⟩ := l
        cases hli; cases hat
        exact hl
      · split at h <;> cases h
    · next hne =>
      cases h
      exact Or.inr ⟨rfl, hne⟩

theorem statusOf_of_clear (hE : entries.Wf) {e : Entry}
    (hc : (ofEntries entries).clear e = true)
    (h : (∃ b s, (⟨e.identity, e.fact.at, b⟩, s) ∈ (derive entries (ofEntries entries).clear
        (ofEntries entries).unaffected).admitted) ∨
      ∀ c d, e.fact ≠ .localDecision c (.rotate d)) :
    ∃ support, (ofEntries entries).statusOf e = .usable support := by
  rw [← conflictingWith_eq_empty hE] at hc
  rw [statusOf]
  simp only [hc, ne_eq, not_true_eq_false, if_false]
  split
  · next c d hf =>
    obtain ⟨b, s, hmem⟩ := h.resolve_right fun hne => hne c d hf
    cases hfind : (ofEntries entries).usableAdmitted.find? (fun a => a.1 = e.identity) with
    | some a => exact ⟨_, rfl⟩
    | none =>
        rw [usableAdmitted_eq] at hfind
        have := List.find?_eq_none.mp hfind (e.identity, s)
          (List.mem_map.mpr ⟨_, hmem, rfl⟩)
        simp at this
  · exact ⟨_, rfl⟩

end Model

/-! ## The result -/

/-- The support re-derives: over the facts a path, a head, a confirmation or a
usable status names as its support, the path is there and every link on it
usable, the head's pair is reached, the fact confirms, and the fact is usable. -/
theorem support_rederives (facts : List ContinuityFact) (hvalid : ∀ f ∈ facts, f.Valid) :
    ∃ m, deriveContinuity facts = .ok m ∧
      (∀ a b channels support, a ≠ b → m.path a b = .path channels support →
        ∃ m', deriveContinuity support = .ok m' ∧
          channels.IsChain (fun x y => (m'.usable.edge? x y).isSome = true) ∧
          ∃ channels' support', m'.path a b = .path channels' support') ∧
      (∀ c h support, h ≠ c → m.head c = .head h support →
        ∃ m', deriveContinuity support = .ok m' ∧
          ∃ channels' support', m'.path c h = .path channels' support') ∧
      (∀ l p observations, m.confirmation l p = .confirmed observations →
        ∀ o ∈ observations, ∃ m', deriveContinuity o.support = .ok m' ∧
          ∃ observations', m'.confirmation l p = .confirmed observations' ∧
            ∃ o' ∈ observations', o'.fact = o.fact) ∧
      ∀ f support, m.status f = .ok (.usable support) →
        ∃ m', deriveContinuity support = .ok m' ∧
          ∃ support', m'.status f = .ok (.usable support') := by
  obtain ⟨entries, hof, hm⟩ := deriveContinuity_spec hvalid
  have hE := hof.wf
  refine ⟨_, hm, ?_, ?_, ?_, ?_⟩
  · intro a b channels support hne hpath
    obtain ⟨ha, hb, _, es, htrail, rfl, rfl⟩ := Model.path_eq_path hE hpath
    obtain ⟨entries', hcov, hm'⟩ := deriveContinuity_factsOf hof
      (supportOf_cites hE fun x hx => (htrail.mem x hx).1)
    obtain ⟨hchain, hpath'⟩ := Model.path_supported hE hcov hne ha hb htrail
      fun x hx i hi => mem_supportOf.mpr ⟨x, hx, hi⟩
    exact ⟨_, hm', hchain, hpath'⟩
  · intro c h support hne hhead
    have hans := Model.head_eq_head hhead
    have hh : h ∈ (Model.ofEntries entries).ends c := by
      rw [hans.ends]; exact List.mem_singleton.mpr rfl
    obtain ⟨es, hes, htrail⟩ := (Graph.reach_spec _ c none none).1
      (Reach.mem_channels.mp (Graph.mem_reach.mpr (Model.mem_ends.mp hh).1))
    have hsub : ∀ x ∈ es, x.support ⊆ ((Model.ofEntries entries).collect c).support :=
      fun x hx => Model.support_of_answered hE (htrail.mem x hx).1
        (Model.trail_reaches_from htrail x hx)
    have hfree : ∀ {d}, (Model.ofEntries entries).positive.Reaches none c d →
        (Model.ofEntries entries).unaffected d = true := by
      intro d hd
      have := hans.unaffected hE hd
      simpa [Model.unaffected] using this
    obtain ⟨entries', hcov, hm'⟩ := deriveContinuity_factsOf hof
      (fun i hi => Model.collect_support_cites hE hi)
    rw [← hans.support] at hm'
    exact ⟨_, hm', (Model.path_supported hE hcov (Ne.symm hne) (hfree .refl)
      (hfree (Model.positive_reaches hE htrail.reaches)) htrail hsub).2⟩
  · intro l p observations hconf o ho
    obtain ⟨hc, hobs⟩ := Model.confirmation_eq_confirmed hE hconf
    obtain ⟨e, es, hmem, hclear, rfl⟩ := hobs o ho
    obtain ⟨hne, he, hobserves, hl, hpath⟩ := Model.mem_observationsReached.mp hmem
    have htrail := Graph.trail_of_pathTo hpath
    obtain ⟨entries', hcov, hm'⟩ := deriveContinuity_factsOf hof
      (s := insert e.identity (supportOf es)) (by
        intro i hi
        rcases Finset.mem_insert.mp hi with rfl | hi
        · exact ⟨e, he, rfl⟩
        · exact supportOf_cites hE (fun x hx => (htrail.mem x hx).1) i hi)
    have hreach := @trail_reaches_in _ (Model.ofEntries entries').usable _ _ _ _ htrail
      fun x hx => usable_supported hE (htrail.mem x hx).1 entries' (hcov.mono fun i hi =>
        Finset.mem_insert_of_mem (mem_supportOf.mpr ⟨x, hx, hi⟩))
    obtain ⟨es', hes'⟩ := Option.isSome_iff_exists.mp (Graph.pathTo_isSome.mpr hreach)
    exact ⟨_, hm', Model.confirmation_of_observation hcov.wf (unaffected_anti hE hcov hc)
      (Model.mem_observationsReached.mpr ⟨hne,
        hcov.entry hE he (Finset.mem_insert_self _ _), hobserves, hl, hes'⟩)
      (Model.clear_anti hcov.wf hE hcov.subset hclear)⟩
  · intro f support hst
    obtain ⟨e, he, rfl, hof'⟩ := (Model.status_eq hE (by simp)).mp hst
    obtain ⟨hclear, hcase⟩ := Model.statusOf_usable hE he hof'
    -- a model over the facts named has the fact, clear, and admits it if it must
    have hstatus : ∀ {s : Finset FactIdentity} {entries'}, Covering entries s entries' →
        e.identity ∈ s →
        ((∃ b t, (⟨e.identity, e.fact.at, b⟩, t) ∈ (derive entries'
          (Model.ofEntries entries').clear (Model.ofEntries entries').unaffected).admitted) ∨
          ∀ c d, e.fact ≠ .localDecision c (.rotate d)) →
        ∃ support', (Model.ofEntries entries').status e.fact = .ok (.usable support') := by
      intro s entries' hcov hin hcase
      obtain ⟨support', hs'⟩ := Model.statusOf_of_clear hcov.wf
        (Model.clear_anti hcov.wf hE hcov.subset hclear) hcase
      exact ⟨support', (Model.status_eq hcov.wf (by simp)).mpr
        ⟨e, hcov.entry hE he hin, rfl, hs'⟩⟩
    rcases hcase with ⟨b, s, _, rfl, hadm⟩ | ⟨rfl, hne⟩
    · obtain ⟨entries', hcov, hm'⟩ := deriveContinuity_factsOf hof
        (s := insert e.identity s) (Model.admitted_cites hE hadm)
      obtain ⟨t, ht⟩ := admitted_supported hE hadm hcov
      exact ⟨_, hm', hstatus hcov (Finset.mem_insert_self _ _) (Or.inl ⟨b, t, ht⟩)⟩
    · obtain ⟨entries', hof', hm'⟩ := @deriveContinuity_spec [e.fact] (by
        intro f hf
        rw [List.mem_singleton.mp hf]
        exact hE.valid he)
      have hentries : ∀ {x}, x ∈ entries' ↔ x = e := by
        intro x
        rw [hof'.mem]
        simp only [List.mem_singleton, exists_eq_left]
        rw [← hE.entry he]
      have hcov : Covering entries {e.identity} entries' :=
        ⟨hof'.wf, fun hx => hentries.mp hx ▸ he, fun i hi =>
          ⟨e, hentries.mpr rfl, (Finset.mem_singleton.mp hi).symm⟩⟩
      exact ⟨_, hm', hstatus hcov (Finset.mem_singleton_self _) (Or.inr hne)⟩

/-- Over the support of its way, the diamond still has the way through it. -/
theorem support_rederives_bothRotated :
    ∃ m support, deriveContinuity bothRotated = .ok m ∧
      m.path ⟨aliceOld, bobOld⟩ ⟨aliceNew, bobNew⟩ =
        .path [⟨aliceOld, bobOld⟩, ⟨aliceOld, bobNew⟩, ⟨aliceNew, bobNew⟩] support ∧
      ∃ m', deriveContinuity support = .ok m' ∧
        (m'.usable.edge? ⟨aliceOld, bobNew⟩ ⟨aliceNew, bobNew⟩).isSome = true := by
  obtain ⟨m, hm, hpath, _⟩ := support_rederives bothRotated bothRotated_valid
  have h : (deriveContinuity bothRotated).map
        (fun m => m.path ⟨aliceOld, bobOld⟩ ⟨aliceNew, bobNew⟩) =
      .ok (.path [⟨aliceOld, bobOld⟩, ⟨aliceOld, bobNew⟩, ⟨aliceNew, bobNew⟩]
        [.localDecision ⟨aliceOld, bobOld⟩ (.rotate aliceNew),
          .peerObservation ⟨aliceOld, bobOld⟩ none,
          .peerObservation ⟨aliceOld, bobNew⟩ (some bobOld)]) := by decide +kernel
  rw [hm] at h
  have hanswer := Except.ok.inj h
  obtain ⟨m', hm', hchain, _⟩ := hpath _ _ _ _ (by decide) hanswer
  simp only [List.isChain_cons_cons] at hchain
  exact ⟨m, _, hm, hanswer, m', hm', hchain.2.1⟩

end Estoc.Continuity
