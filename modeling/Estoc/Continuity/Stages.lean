import Estoc.Continuity.Conflicts

/-!
# The stages of a model

A model is derived from the facts accepted: the positive graph over all of them,
the conflicts in it, and the usable graph over what no conflict reaches. This
file connects the model the code builds to the statements about derivations and
conflicts: `accept_spec` for the facts, `positive_spec` and `usable_spec` for the
two graphs, `covers_found` for the conflicts between them.
-/

namespace Estoc.Continuity

set_option linter.unusedSectionVars false

/-! ## Facts accepted -/

private def keep (accepted : OMap FactIdentity ContinuityFact) (fact : ContinuityFact) :
    OMap FactIdentity ContinuityFact := accepted.set (identityOf fact) fact

private theorem get?_keep {facts : List ContinuityFact} {i : FactIdentity}
    {f : ContinuityFact} :
    (facts.foldl keep OMap.empty).get? i = some f ↔ f ∈ facts ∧ i = identityOf f := by
  induction facts using List.reverseRecOn with
  | nil => simp
  | append_singleton l x ih =>
      rw [List.foldl_append, List.foldl_cons, List.foldl_nil, keep, OMap.get?_set]
      simp only [List.mem_append, List.mem_singleton]
      split
      · next hi =>
        constructor
        · intro h
          cases h
          exact ⟨Or.inr rfl, hi⟩
        · rintro ⟨_, rfl⟩
          rw [identityOf_injective hi]
      · next hi =>
        rw [ih]
        constructor
        · rintro ⟨hf, h⟩
          exact ⟨Or.inl hf, h⟩
        · rintro ⟨hf | rfl, h⟩
          · exact ⟨hf, h⟩
          · exact absurd h hi

/-- Every fact valid: all of them are accepted, each once. -/
theorem accept_spec {facts : List ContinuityFact} (hv : ∀ f ∈ facts, f.Valid) :
    ∃ accepted, accept facts = .ok accepted ∧ (accepted.map Prod.fst).Nodup ∧
      ∀ i f, (i, f) ∈ accepted ↔ f ∈ facts ∧ i = identityOf f := by
  have hfold : ∀ (l : List (ContinuityFact × Nat)) (acc : OMap FactIdentity ContinuityFact),
      (∀ p ∈ l, p.1.Valid) →
      l.foldlM (fun accepted p => do
        let fact ← validateFact p.1 s!"facts[{p.2}]"
        pure (accepted.set (identityOf fact) fact)) acc =
        (Except.ok ((l.map Prod.fst).foldl keep acc) : Except InvalidFact _) := by
    intro l
    induction l with
    | nil => intro acc _; rfl
    | cons p l ih =>
        intro acc h
        obtain ⟨value, index⟩ := p
        have hvalue : value.Valid := h _ List.mem_cons_self
        simp only [List.foldlM_cons, validateFact_of_valid hvalue]
        exact ih _ fun q hq => h q (List.mem_cons_of_mem _ hq)
  have hzip : ∀ p ∈ facts.zipIdx, p.1.Valid := fun p hp => hv _ (List.fst_mem_of_mem_zipIdx hp)
  refine ⟨_, congrArg (· >>= _) (hfold facts.zipIdx OMap.empty hzip), ?_, fun i f => ?_⟩
  · exact (List.Perm.nodup_iff ((Cmp.sortBy_perm _).map _)).mpr (OMap.nodup _)
  · rw [Cmp.mem_sortBy, OMap.mem_entries, List.zipIdx_map_fst]
    exact get?_keep

/-- The entries of a list of facts: those facts, each once. -/
structure EntriesOf (facts : List ContinuityFact) (entries : Entries) : Prop where
  wf : entries.Wf
  mem : ∀ {e}, e ∈ entries ↔ ∃ f ∈ facts, e = entryOf (identityOf f) f

theorem deriveContinuity_spec {facts : List ContinuityFact} (hv : ∀ f ∈ facts, f.Valid) :
    ∃ entries, EntriesOf facts entries ∧
      deriveContinuity facts = .ok (Model.ofEntries entries) := by
  obtain ⟨accepted, hok, hnodup, hmem⟩ := accept_spec hv
  have hentries : ∀ {e}, e ∈ Entries.ofFacts accepted ↔
      ∃ f ∈ facts, e = entryOf (identityOf f) f := by
    intro e
    rw [Entries.ofFacts, List.mem_map]
    constructor
    · rintro ⟨⟨i, f⟩, h, rfl⟩
      obtain ⟨hf, rfl⟩ := (hmem i f).mp h
      exact ⟨f, hf, rfl⟩
    · rintro ⟨f, hf, rfl⟩
      exact ⟨(identityOf f, f), (hmem _ _).mpr ⟨hf, rfl⟩, rfl⟩
  refine ⟨Entries.ofFacts accepted, ⟨⟨?_, ?_, ?_⟩, hentries⟩, by
    rw [deriveContinuity, hok]; rfl⟩
  · rw [Entries.ofFacts, List.map_map]
    exact hnodup
  · intro e he
    obtain ⟨f, hf, rfl⟩ := hentries.mp he
    exact hv f hf
  · intro e he
    obtain ⟨f, _, rfl⟩ := hentries.mp he
    rfl

/-- The entries of some of the facts are some of the entries. -/
theorem EntriesOf.subset {facts facts' : List ContinuityFact} {entries entries' : Entries}
    (h : EntriesOf facts entries) (h' : EntriesOf facts' entries')
    (hsub : ∀ f ∈ facts, f ∈ facts') {e : Entry} (he : e ∈ entries) : e ∈ entries' := by
  obtain ⟨f, hf, rfl⟩ := h.mem.mp he
  exact h'.mem.mpr ⟨f, hsub f hf, rfl⟩

theorem EntriesOf.fact {facts : List ContinuityFact} {entries : Entries}
    (h : EntriesOf facts entries) {e : Entry} (he : e ∈ entries) : e.fact ∈ facts := by
  obtain ⟨f, hf, rfl⟩ := h.mem.mp he
  exact hf

/-! ## The graphs -/

/-- The choice of every fact, and of every channel. -/
abbrev every {α : Type} : α → Bool := fun _ => true

namespace Model

variable {entries : Entries}

theorem positive_out : (ofEntries entries).positive.out =
    (derive entries every every).graph.out := by
  have hsites : ∀ (l : List Channel) (g : Graph FactIdentity),
      (l.foldl Graph.vertex g).out = g.out := by
    intro l
    induction l with
    | nil => intro g; rfl
    | cons c l ih => intro g; rw [List.foldl_cons, ih, Graph.vertex_out]
  have hall : ∀ (l : List Entry) (g : Graph FactIdentity),
      (l.foldl (fun g e => e.sites.foldl Graph.vertex g) g).out = g.out := by
    intro l
    induction l with
    | nil => intro g; rfl
    | cons e l ih => intro g; rw [List.foldl_cons, ih, hsites]
  exact hall _ _

theorem positive_collisions : (ofEntries entries).positive.identityCollisions =
    (derive entries every every).graph.identityCollisions := by
  have hsites : ∀ (l : List Channel) (g : Graph FactIdentity),
      (l.foldl Graph.vertex g).identityCollisions = g.identityCollisions := by
    intro l
    induction l with
    | nil => intro g; rfl
    | cons c l ih => intro g; rw [List.foldl_cons, ih, Graph.vertex_collisions]
  have hall : ∀ (l : List Entry) (g : Graph FactIdentity),
      (l.foldl (fun g e => e.sites.foldl Graph.vertex g) g).identityCollisions =
        g.identityCollisions := by
    intro l
    induction l with
    | nil => intro g; rfl
    | cons e l ih => intro g; rw [List.foldl_cons, ih, hsites]
  exact hall _ _

theorem positive_edges : (ofEntries entries).positive.edges =
    (derive entries every every).graph.edges := by
  rw [Graph.edges, Graph.edges, positive_out]

theorem positive_leads : (ofEntries entries).positive.Leads =
    (derive entries every every).graph.Leads := by
  funext kind a b
  rw [Graph.Leads, Graph.Leads, positive_edges]

/-- A pair the model knows: one a fact sits at, or an end of a positive link. -/
theorem mem_positive_vertices {c : Channel} : c ∈ (ofEntries entries).positive.vertices ↔
    c ∈ (derive entries every every).graph.vertices ∨ ∃ e ∈ entries, c ∈ e.sites := by
  have hsites : ∀ (l : List Channel) (g : Graph FactIdentity),
      c ∈ (l.foldl Graph.vertex g).vertices ↔ c ∈ g.vertices ∨ c ∈ l := by
    intro l
    induction l with
    | nil => intro g; simp
    | cons x l ih =>
        intro g
        rw [List.foldl_cons, ih, Graph.mem_vertex, List.mem_cons, or_assoc]
  have hall : ∀ (l : List Entry) (g : Graph FactIdentity),
      c ∈ (l.foldl (fun g e => e.sites.foldl Graph.vertex g) g).vertices ↔
        c ∈ g.vertices ∨ ∃ e ∈ l, c ∈ e.sites := by
    intro l
    induction l with
    | nil => intro g; simp
    | cons e l ih =>
        intro g
        rw [List.foldl_cons, ih, hsites]
        simp only [List.mem_cons, exists_eq_or_imp, or_assoc]
  exact hall _ _

theorem positive_spec (hE : entries.Wf) :
    Derivation entries every every (derive entries every every) := derive_spec hE

theorem positive_positive (hE : entries.Wf) :
    Positive entries (ofEntries entries).positive where
  ends {x} hx := by
    rw [positive_edges] at hx
    obtain ⟨h, h'⟩ := (positive_spec hE).ends hx
    exact ⟨mem_positive_vertices.mpr (Or.inl h), mem_positive_vertices.mpr (Or.inl h')⟩
  sites he hc := mem_positive_vertices.mpr
    (Or.inr ⟨_, he, (hE.sites he).mpr (Or.inr ⟨_, hc, rfl⟩)⟩)
  support hx := by
    rw [positive_edges] at hx
    exact ((positive_spec hE).sane hx).nonempty
  collides := by
    rintro channels ⟨a, b, d, rfl, hl, hp, he⟩
    rw [positive_leads] at hl hp
    rw [positive_collisions]
    exact (positive_spec hE).collision hl hp he
  collision hc := by
    rw [positive_collisions] at hc
    rw [Collides, positive_leads]
    exact derive_collides hE hE Within.refl hc
  collision_support hc := by
    rw [positive_collisions] at hc
    exact (positive_spec hE).collision_support hc

theorem covers_found (hE : entries.Wf) :
    Covers (ofEntries entries).found (Affected entries (ofEntries entries).positive) :=
  covers_findConflicts (positive_positive hE)

theorem affected_iff (hE : entries.Wf) {c : Channel} :
    (ofEntries entries).affected c = true ↔ Affected entries (ofEntries entries).positive c :=
  affectedIn_iff (covers_found hE)

theorem conflictFactsAt_eq_empty (hE : entries.Wf) {c : Channel} :
    (ofEntries entries).conflictFactsAt c = ∅ ↔ ¬ (ofEntries entries).affected c = true := by
  rw [affected_iff hE]
  exact conflictFactsIn_eq_empty (covers_found hE)

theorem clear_iff {m : Model} {e : Entry} :
    m.clear e = true ↔ ∀ c ∈ e.pairs, ¬ m.affected c = true := by
  rw [clear, clearIn, List.all_eq_true]
  simp only [Bool.not_eq_true', affected, Bool.not_eq_true]

theorem conflictingWith_eq_empty (hE : entries.Wf) {e : Entry} :
    (ofEntries entries).conflictingWith e = ∅ ↔ (ofEntries entries).clear e = true := by
  rw [clear_iff, Finset.eq_empty_iff_forall_notMem]
  simp only [conflictingWith, mem_foldr_union, Finset.notMem_empty, or_false, not_exists,
    not_and]
  constructor
  · intro h c hc
    rw [← conflictFactsAt_eq_empty hE, Finset.eq_empty_iff_forall_notMem]
    exact fun i hi => h i c hc hi
  · intro h i c hc hi
    have hempty := (conflictFactsAt_eq_empty hE).mpr (h c hc)
    rw [hempty] at hi
    cases hi

/-- The channels the usable graph admits. -/
abbrev unaffected (m : Model) (c : Channel) : Bool := !m.affected c

theorem usableAdmitted_eq : (ofEntries entries).usableAdmitted =
    (derive entries (ofEntries entries).clear (ofEntries entries).unaffected).admitted.map
      fun l => (l.1.identity, l.2) := rfl

theorem usable_spec (hE : entries.Wf) :
    Derivation entries (ofEntries entries).clear (ofEntries entries).unaffected
      (derive entries (ofEntries entries).clear (ofEntries entries).unaffected) :=
  derive_spec hE

/-- A usable link is a positive link. -/
theorem positive_of_usable (hE : entries.Wf) {side : Side} {a b : Channel}
    (h : (ofEntries entries).usable.Leads (some side) a b) :
    (ofEntries entries).positive.Leads (some side) a b := by
  rw [positive_leads]
  exact derive_mono hE hE ⟨fun he _ => ⟨he, rfl⟩, fun _ => rfl⟩ h

/-- A usable link touches no channel a conflict reaches. -/
theorem unaffected_of_usable (hE : entries.Wf) {x : Edge FactIdentity}
    (hx : x ∈ (ofEntries entries).usable.edges) :
    ¬ (ofEntries entries).affected x.from = true ∧ ¬ (ofEntries entries).affected x.to = true := by
  have h := (usable_spec hE).admitted_ends hx
  simpa [unaffected] using h

end Model

end Estoc.Continuity
