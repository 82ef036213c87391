import Estoc.Continuity.Support
import Estoc.Lib.Ends

/-!
# The head is unique, and no fallback

Where no conflict reaches, the graph is deterministic side by side, has no cycle
and completes every fork of a local and a peer link to a diamond. The first is
the least obvious, since a link may be derived and the decision it goes back to
sits at another pair of its context: `Origin` is that decision, and two links of
one side leaving one pair have origins in one context, so that they compete
unless they are the same link.

So the usable links from a pair no conflict reaches lead to one end. That the
positive links lead to no other is not confluence of the positive graph: a
positive end that usable links do not reach would have put what leads to it in
conflict. And the search from any pair on the way answers the same, since it
asks the same of fewer pairs.
-/

namespace Estoc.Continuity

set_option linter.unusedSectionVars false

variable {entries : Entries}

/-! ## Where links come from -/

/-- A claim of the context that names the successor of the link. -/
def Origin (entries : Entries) (g : Graph FactIdentity) (side : Side) (a b : Channel) : Prop :=
  ∃ e claim, Claims entries side e claim ∧ Same g side claim.at a ∧
    claim.change = .rotate (successorOf side b)

theorem origin_of_links (hE : entries.Wf) {g : Graph FactIdentity} {side : Side}
    {a b : Channel} {e : Entry} (he : e ∈ entries) (hl : e.Links side a b) :
    Origin entries g side a b := by
  obtain ⟨claim, hc, hs, hat, hto⟩ := hl
  refine ⟨e, claim, ⟨he, hc, hs⟩, hat ▸ .refl _, ?_⟩
  rcases hE.claim_to he hc with ⟨_, hnone⟩ | ⟨d, hd, hsome⟩
  · rw [hnone] at hto; cases hto
  · rw [hsome, hs] at hto
    cases hto
    rw [hd]
    cases side <;> rfl

/-- A link keeps the context of the other side. -/
theorem same_of_leads {g : Graph FactIdentity} {side : Side} {a b : Channel}
    (h : g.Leads (some side) a b) : Same g side.other a b := by
  refine .rel _ _ ?_
  cases side <;> exact h

theorem kept_origin (hE : entries.Wf) :
    Kept entries every every
      (fun a b side s => Sane entries every a b side s ∧
        (derive entries every every).graph.Leads (some side) a b ∧
        Origin entries (derive entries every every).graph side a b)
      (fun channels _ => Collides (derive entries every every).graph channels) := by
  have hk := kept_within hE hE (@Within.refl entries every every)
  refine ⟨⟨?_, ?_, ?_⟩, ?_, ?_⟩
  · rintro a b side side' s t ⟨h, hl, ho⟩ ⟨h', hl', _⟩
    exact ⟨(hk.rules.union ⟨h, hl⟩ ⟨h', hl'⟩).1, hl, ho⟩
  · rintro a b d s t ⟨h, hl, e, claim, hc, hs, hch⟩ ⟨h', hl', e', claim', hc', hs', hch'⟩ hne hadm
    obtain ⟨hp, hq⟩ := hk.rules.join ⟨h, hl⟩ ⟨h', hl'⟩ hne hadm
    -- each joined link goes back to the decision of the link across from it
    exact ⟨⟨hp.1, hp.2, e', claim', hc', hs'.trans _ _ _ (same_of_leads hl), hch'⟩,
      ⟨hq.1, hq.2, e, claim, hc, hs.trans _ _ _ (same_of_leads hl'), hch⟩⟩
  · rintro a b d s t ⟨h, hl, _⟩ ⟨h', hl', _⟩ he
    exact hk.rules.collision ⟨h, hl⟩ ⟨h', hl'⟩ he
  · intro e a b he hc hl ha hb
    obtain ⟨hs, hlead⟩ := hk.peer he hc hl ha hb
    exact ⟨hs, hlead, origin_of_links hE he hl⟩
  · intro e a b o g es c s he hc hl ha hb ho hoc hobs hol hg htrail hp hsub hcites
    have hg' : Graph.Sound (fun a b side s => Sane entries every a b side s ∧
        (derive entries every every).graph.Leads (some side) a b)
        (fun channels _ => Collides (derive entries every every).graph channels) g :=
      ⟨fun hx => ⟨(hg.edge hx).1, (hg.edge hx).2.1⟩, hg.collision, hg.ends, hg.touched,
        hg.admitted, hg.nodup⟩
    obtain ⟨hs, hlead⟩ := hk.decision he hc hl ha hb ho hoc hobs hol hg' htrail hp hsub hcites
    exact ⟨hs, hlead, origin_of_links hE he hl⟩

namespace Model

theorem positive_origin (hE : entries.Wf) {side : Side} {a b : Channel}
    (h : (ofEntries entries).positive.Leads (some side) a b) :
    Origin entries (ofEntries entries).positive side a b := by
  rw [positive_leads] at h
  obtain ⟨x, hx, rfl, rfl, hk⟩ := h
  have := ((derive_induction (kept_origin hE)).1 hx).2.2
  rw [ofKind_some.mp hk] at this
  rwa [Origin, Same, positive_leads]

theorem positive_replaces (hE : entries.Wf) {side : Side} {a b : Channel}
    (h : (ofEntries entries).positive.Leads (some side) a b) : Replaces side a b := by
  rw [positive_leads] at h
  obtain ⟨x, hx, rfl, rfl, hk⟩ := h
  have := ((positive_spec hE).sane hx).replaces
  rwa [ofKind_some.mp hk] at this

/-! ## Where no conflict reaches -/

section Unaffected

variable {a : Channel}

theorem positive_known (hE : entries.Wf) {kind : Option Side} {a b : Channel}
    (h : (ofEntries entries).positive.Leads kind a b) :
    a ∈ (ofEntries entries).positive.vertices ∧ b ∈ (ofEntries entries).positive.vertices := by
  obtain ⟨x, hx, rfl, rfl, _⟩ := h
  exact (positive_positive hE).ends hx

/-- One link of a side leaves the pair. -/
theorem leads_unique (hE : entries.Wf) (ha : ¬ (ofEntries entries).affected a = true)
    {side : Side} {b d : Channel} (hb : (ofEntries entries).positive.Leads (some side) a b)
    (hd : (ofEntries entries).positive.Leads (some side) a d) : b = d := by
  by_contra hne
  have hsucc : successorOf side b ≠ successorOf side d := by
    intro h
    refine hne ?_
    rw [(positive_replaces hE hb).eq_replaced, (positive_replaces hE hd).eq_replaced, h]
  obtain ⟨e₁, c₁, hc₁, hs₁, hch₁⟩ := positive_origin hE hb
  obtain ⟨e₂, c₂, hc₂, hs₂, hch₂⟩ := positive_origin hE hd
  have hcompetes : Competes entries (ofEntries entries).positive side a :=
    ⟨a, ⟨e₁, c₁, e₂, c₂, hc₁, hc₂, hs₁, hs₂, by
      rw [hch₁, hch₂]; exact fun h => hsucc (Change.rotate.inj h)⟩,
      Or.inl ⟨(positive_known hE hb).1, .refl _⟩⟩
  refine ha ((affected_iff hE).mpr ?_)
  cases side
  · exact Or.inr (Or.inl hcompetes)
  · exact Or.inl hcompetes

/-- No link leads on from the pair and back. -/
theorem no_way_back (hE : entries.Wf) (ha : ¬ (ofEntries entries).affected a = true)
    {b : Channel} (hb : (ofEntries entries).positive.Leads none a b) :
    ¬ (ofEntries entries).positive.Reaches none b a := by
  intro hback
  obtain ⟨side, hside⟩ := leads_any_iff.mp hb
  exact ha ((affected_iff hE).mpr (Or.inr (Or.inr (Or.inl
    ⟨b, (positive_replaces hE hside).ne.symm, .single hb, hback⟩))))

/-- A local and a peer link that leave the pair join. -/
theorem joins (hE : entries.Wf) (ha : ¬ (ofEntries entries).affected a = true) {b d : Channel}
    (hb : (ofEntries entries).positive.Leads (some .local) a b)
    (hd : (ofEntries entries).positive.Leads (some .peer) a d) :
    b.localDid ≠ d.peerDid ∧
      (ofEntries entries).positive.Leads (some .peer) b ⟨b.localDid, d.peerDid⟩ ∧
      (ofEntries entries).positive.Leads (some .local) d ⟨b.localDid, d.peerDid⟩ := by
  have hne : b.localDid ≠ d.peerDid := fun h => ha ((affected_iff hE).mpr
    (Or.inr (Or.inr (Or.inr ⟨[a, b, d], ⟨a, b, d, rfl, hb, hd, h⟩, List.mem_cons_self⟩))))
  rw [positive_leads] at hb hd ⊢
  exact ⟨hne, (positive_spec hE).join hb hd hne rfl⟩

end Unaffected

/-! ## The ends of a reach no conflict reaches -/

section Reach

variable {c : Channel}

/-- No conflict reaches the positive reach of the pair. -/
def Free (entries : Entries) (c : Channel) : Prop :=
  ∀ d, (ofEntries entries).positive.Reaches none c d → ¬ (ofEntries entries).affected d = true

/-- Two usable links that leave one pair of the reach are one link, or lead
together again. -/
theorem usable_diamond (hE : entries.Wf) (hc : Free entries c) {x y z : Channel}
    (hx : (ofEntries entries).usable.Reaches none c x)
    (hy : (ofEntries entries).usable.Leads none x y)
    (hz : (ofEntries entries).usable.Leads none x z) :
    y = z ∨ ∃ w, (ofEntries entries).usable.Leads none y w ∧
      (ofEntries entries).usable.Leads none z w := by
  have hcx := positive_reaches hE hx
  have hfork : ∀ {u v}, (ofEntries entries).usable.Leads (some .local) x u →
      (ofEntries entries).usable.Leads (some .peer) x v →
      ∃ w, (ofEntries entries).usable.Leads none u w ∧
        (ofEntries entries).usable.Leads none v w := by
    intro u v hu hv
    obtain ⟨hne, hj, _⟩ := joins hE (hc x hcx) (positive_of_usable hE hu)
      (positive_of_usable hE hv)
    -- the pair joined is in the reach, so the usable graph admits it
    have hfree : (ofEntries entries).unaffected ⟨u.localDid, v.peerDid⟩ = true := by
      have := hc _ ((hcx.tail (positive_of_usable hE hu).any).tail hj.any)
      simpa [unaffected] using this
    obtain ⟨hp, hl⟩ := (usable_spec hE).join hu hv hne hfree
    exact ⟨_, hp.any, hl.any⟩
  obtain ⟨s, hy⟩ := leads_any_iff.mp hy
  obtain ⟨t, hz⟩ := leads_any_iff.mp hz
  match s, t, hy, hz with
  | .local, .local, hy, hz =>
      exact Or.inl (leads_unique hE (hc x hcx) (positive_of_usable hE hy)
        (positive_of_usable hE hz))
  | .peer, .peer, hy, hz =>
      exact Or.inl (leads_unique hE (hc x hcx) (positive_of_usable hE hy)
        (positive_of_usable hE hz))
  | .local, .peer, hy, hz => exact Or.inr (hfork hy hz)
  | .peer, .local, hy, hz =>
      obtain ⟨w, hzw, hyw⟩ := hfork hz hy
      exact Or.inr ⟨w, hyw, hzw⟩

theorem isEnd_iff {g : Graph FactIdentity} {d : Channel} :
    Ends.IsEnd (g.Leads none) d ↔ ¬ ∃ e ∈ g.edges, e.from = d := by
  refine not_congr ⟨?_, ?_⟩
  · rintro ⟨b, e, he, hf, _⟩
    exact ⟨e, he, hf⟩
  · rintro ⟨e, he, hf⟩
    exact ⟨e.to, e, he, hf, rfl, ofKind_none e⟩

/-- Usable links lead from the pair to exactly one end. -/
theorem ends_eq_singleton (hE : entries.Wf) (hc : Free entries c)
    (hk : c ∈ (ofEntries entries).positive.vertices) :
    ∃ h, (ofEntries entries).ends c = [h] := by
  have hknown : ∀ d, (ofEntries entries).usable.Reaches none c d →
      d ∈ (ofEntries entries).positive.vertices.toFinset := by
    intro d hd
    rw [List.mem_toFinset]
    rcases Relation.ReflTransGen.cases_tail (positive_reaches hE hd) with rfl | ⟨x, _, hx⟩
    · exact hk
    · exact (positive_known hE hx).2
  have hforward : ∀ x y, (ofEntries entries).usable.Reaches none c x →
      (ofEntries entries).usable.Leads none x y →
      ¬ (ofEntries entries).usable.Reaches none y x := by
    intro x y hx hy hback
    obtain ⟨side, hy⟩ := leads_any_iff.mp hy
    exact no_way_back hE (hc x (positive_reaches hE hx)) (positive_of_usable hE hy).any
      (positive_reaches hE hback)
  obtain ⟨h, hh, hend⟩ := Ends.exists_end hknown hforward
  refine ⟨h, ?_⟩
  have hmem : ∀ {d}, d ∈ (ofEntries entries).ends c ↔ d = h := by
    intro d
    rw [mem_ends, ← isEnd_iff]
    constructor
    · rintro ⟨hd, hdend⟩
      have := Ends.end_of_diamond (fun x y z => usable_diamond hE hc) hh hend hd
      rcases Relation.ReflTransGen.cases_head this with rfl | ⟨x, hx, _⟩
      · rfl
      · exact absurd ⟨x, hx⟩ hdend
    · rintro rfl
      exact ⟨hh, hend⟩
  have hnodup : ((ofEntries entries).ends c).Nodup := Reach.nodup_channels.filter _
  refine List.perm_singleton.mp ((List.perm_ext_iff_of_nodup hnodup (List.nodup_singleton h)).mpr
    fun d => ?_)
  rw [hmem, List.mem_singleton]

theorem Answered.free (hE : entries.Wf) {h : Channel} {support : List ContinuityFact}
    (ha : Answered (ofEntries entries) c h support) : Free entries c :=
  fun _ hd => ha.unaffected hE hd

theorem Answered.reaches {m : Model} {h : Channel} {support : List ContinuityFact}
    (ha : Answered m c h support) : m.usable.Reaches none c h ∧ ¬ ∃ e ∈ m.usable.edges, e.from = h := by
  refine mem_ends.mp ?_
  rw [ha.ends]
  exact List.mem_singleton.mpr rfl

/-- A positive end the pair leads to is the head: usable links reach it too, or
what leads to it would have been collected as a conflict. -/
theorem Answered.positive_end (hE : entries.Wf) {h : Channel} {support : List ContinuityFact}
    (ha : Answered (ofEntries entries) c h support) {d : Channel}
    (hd : (ofEntries entries).positive.Reaches none c d)
    (hend : ¬ ∃ e ∈ (ofEntries entries).positive.edges, e.from = d) : d = h := by
  by_cases hu : (ofEntries entries).usable.Reaches none c d
  · have hmem : d ∈ (ofEntries entries).ends c := by
      refine mem_ends.mpr ⟨hu, ?_⟩
      rintro ⟨e, he, hf⟩
      obtain ⟨y, hy, hyf, _⟩ := positive_of_usable hE ⟨e, he, rfl, rfl, ofKind_some.mpr rfl⟩
      exact hend ⟨y, hy, hyf.trans hf⟩
    rw [ha.ends] at hmem
    exact List.mem_singleton.mp hmem
  · rcases Relation.ReflTransGen.cases_tail hd with rfl | ⟨x, _, e, he, _, hto, _⟩
    · exact absurd .refl hu
    · obtain ⟨i, hi⟩ := (positive_positive hE).support he
      have hmem : i ∈ ((ofEntries entries).collect c).conflict := by
        refine (mem_collect (fun _ _ => rfl) rfl).mpr ⟨d, hd, ?_⟩
        rw [← Graph.mem_reach, Reach.mem_channels, Bool.not_eq_true] at hu
        rw [← Graph.hasOutgoing_iff, Bool.not_eq_true] at hend
        rw [collectAt, hu, hend]
        exact mem_supportOf.mpr ⟨e, Graph.mem_to.mpr ⟨he, hto⟩, hi⟩
      rw [ha.conflict] at hmem
      cases hmem

/-- No positive link leaves the head. -/
theorem Answered.no_outgoing (hE : entries.Wf) {h : Channel} {support : List ContinuityFact}
    (ha : Answered (ofEntries entries) c h support) :
    ¬ ∃ e ∈ (ofEntries entries).positive.edges, e.from = h := by
  have hch := positive_reaches hE ha.reaches.1
  have hknown : h ∈ (ofEntries entries).positive.vertices := by
    rcases Relation.ReflTransGen.cases_tail hch with rfl | ⟨x, _, hx⟩
    · exact ha.known
    · exact (positive_known hE hx).2
  obtain ⟨t, ht, hend⟩ := @Ends.exists_end _
    ((ofEntries entries).positive.Leads none) (ofEntries entries).positive.vertices.toFinset h
    (fun b hb => by
      rw [List.mem_toFinset]
      rcases Relation.ReflTransGen.cases_tail hb with rfl | ⟨x, _, hx⟩
      · exact hknown
      · exact (positive_known hE hx).2)
    (fun x y hx hy => no_way_back hE (ha.unaffected hE (hch.trans hx)) hy)
  obtain rfl := ha.positive_end hE (hch.trans ht) (isEnd_iff.mp hend)
  exact isEnd_iff.mp hend

/-- The pairs on the usable way reach the head as well. -/
theorem Answered.reaches_from (hE : entries.Wf) {h : Channel} {support : List ContinuityFact}
    (ha : Answered (ofEntries entries) c h support) {d : Channel}
    (hd : (ofEntries entries).usable.Reaches none c d) :
    (ofEntries entries).usable.Reaches none d h :=
  Ends.end_of_diamond (fun _ _ _ => usable_diamond hE (ha.free hE)) ha.reaches.1
    (isEnd_iff.mpr ha.reaches.2) hd

/-- What is collected from a pair on the way is collected from the start. -/
theorem Answered.collect_subset (hE : entries.Wf) {h : Channel} {support : List ContinuityFact}
    (ha : Answered (ofEntries entries) c h support) {d : Channel}
    (hd : (ofEntries entries).usable.Reaches none c d)
    {part : Collected → Finset FactIdentity}
    (hpart : ∀ a b, part (a.union b) = part a ∪ part b) (hempty : part Collected.empty = ∅)
    {i : FactIdentity} (hi : i ∈ part ((ofEntries entries).collect d)) :
    i ∈ part ((ofEntries entries).collect c) := by
  obtain ⟨current, hcurrent, hi⟩ := (mem_collect hpart hempty).mp hi
  have hreach := (positive_reaches hE hd).trans hcurrent
  by_cases hu : (ofEntries entries).usable.Reaches none d current
  · refine (mem_collect hpart hempty).mpr ⟨current, hreach, ?_⟩
    exact (mem_collectAt hpart hempty (hd.trans hu)).mpr ((mem_collectAt hpart hempty hu).mp hi)
  · have hout : (ofEntries entries).positive.hasOutgoing current = true := by
      by_contra hne
      rw [Graph.hasOutgoing_iff] at hne
      obtain rfl := ha.positive_end hE hreach hne
      exact hu (ha.reaches_from hE hd)
    rw [← Graph.mem_reach, Reach.mem_channels, Bool.not_eq_true] at hu
    rw [collectAt, hu, hout] at hi
    rw [show part (if (!false) = true then if true = true then Collected.empty else
      { Collected.empty with conflict := supportOf ((ofEntries entries).positive.to current) }
      else _) = ∅ from hempty] at hi
    cases hi

/-- A head is answered once nothing was collected. -/
theorem head_of_collected {m : Model} {d h : Channel} (hk : d ∈ m.positive.vertices)
    (hr : m.reaching d = ∅) (hc : (m.collect d).conflict = ∅)
    (he : (m.collect d).endings = ∅) (hw : (m.collect d).waiting = ∅)
    (hends : m.ends d = [h]) : m.head d = .head h (m.factsOf (m.collect d).support) := by
  rw [head, if_neg (by simpa [known] using hk)]
  simp only [hr, hc, he, hw, hends, ne_eq, not_true_eq_false, if_false]

/-- Every pair on the usable way answers the same head. -/
theorem Answered.head_from (hE : entries.Wf) {h : Channel} {support : List ContinuityFact}
    (ha : Answered (ofEntries entries) c h support) {d : Channel}
    (hd : (ofEntries entries).usable.Reaches none c d) :
    ∃ support', (ofEntries entries).head d = .head h support' := by
  have hnone : ∀ {part : Collected → Finset FactIdentity},
      (∀ a b, part (a.union b) = part a ∪ part b) → part Collected.empty = ∅ →
      part ((ofEntries entries).collect c) = ∅ → part ((ofEntries entries).collect d) = ∅ := by
    intro part hpart hempty hcc
    rw [Finset.eq_empty_iff_forall_notMem]
    intro i hi
    have := ha.collect_subset hE hd hpart hempty hi
    rw [hcc] at this
    cases this
  have hfree : Free entries d := fun x hx => ha.free hE x ((positive_reaches hE hd).trans hx)
  have hknown : d ∈ (ofEntries entries).positive.vertices := by
    rcases Relation.ReflTransGen.cases_tail (positive_reaches hE hd) with rfl | ⟨x, _, hx⟩
    · exact ha.known
    · exact (positive_known hE hx).2
  have hreaching : (ofEntries entries).reaching d = ∅ := by
    rcases Relation.ReflTransGen.cases_tail hd with rfl | ⟨x, _, e, he, _, hto, _⟩
    · exact ha.reaching
    · -- a usable link leads to the pair, so it is established
      have hest : (ofEntries entries).established d = true := by
        rw [established, Bool.or_eq_true]
        refine Or.inr ?_
        rw [Bool.not_eq_true', List.isEmpty_eq_false_iff_exists_mem]
        exact ⟨e, Graph.mem_to.mpr ⟨he, hto⟩⟩
      rw [Finset.eq_empty_iff_forall_notMem]
      intro i hi
      rw [Model.reaching, mem_foldr_union, if_pos hest] at hi
      rcases hi with ⟨x, hx, hi⟩ | hi
      · rw [(conflictFactsAt_eq_empty hE).mpr (hfree x (Graph.mem_reach.mp hx))] at hi
        cases hi
      · cases hi
  obtain ⟨h', hends⟩ := ends_eq_singleton hE hfree hknown
  have hh : h ∈ (ofEntries entries).ends d := mem_ends.mpr ⟨ha.reaches_from hE hd, ha.reaches.2⟩
  rw [hends, List.mem_singleton] at hh
  subst hh
  exact ⟨_, head_of_collected hknown hreaching (hnone (fun _ _ => rfl) rfl ha.conflict)
    (hnone (fun _ _ => rfl) rfl ha.endings) (hnone (fun _ _ => rfl) rfl ha.waiting) hends⟩

end Reach

end Model

/-! ## The result -/

/-- The head is unique and no fallback. A head answered for a pair is reached by
usable links and so by positive ones; no positive link leaves it, and it is the
only pair positively reached of which that holds; a path to it is answered; and
every pair on the usable way answers the same head. Where neither a conflict, nor
an ending, nor a waiting rotation was collected, usable links lead to exactly one
end, so the last guard of `head` never decides. -/
theorem head_unique (facts : List ContinuityFact) (hvalid : ∀ f ∈ facts, f.Valid) :
    ∃ m, deriveContinuity facts = .ok m ∧
      (∀ c h support, m.head c = .head h support →
        m.positive.Reaches none c h ∧
        (¬ ∃ e ∈ m.positive.edges, e.from = h) ∧
        (∀ d, m.positive.Reaches none c d → (¬ ∃ e ∈ m.positive.edges, e.from = d) → d = h) ∧
        m.usable.Reaches none c h ∧
        (∃ channels support', m.path c h = .path channels support') ∧
        ∀ d, m.usable.Reaches none c d → ∃ support', m.head d = .head h support') ∧
      ∀ c, c ∈ m.positive.vertices → m.reaching c = ∅ → (m.collect c).conflict = ∅ →
        (m.collect c).endings = ∅ → (m.collect c).waiting = ∅ → ∃ h, m.ends c = [h] := by
  obtain ⟨entries, hof, hm⟩ := deriveContinuity_spec hvalid
  have hE := hof.wf
  refine ⟨_, hm, ?_, ?_⟩
  · intro c h support hhead
    have ha := Model.head_eq_head hhead
    have hch := Model.positive_reaches hE ha.reaches.1
    have hfree : ∀ {d}, (Model.ofEntries entries).positive.Reaches none c d →
        (Model.ofEntries entries).unaffected d = true := by
      intro d hd
      simpa [Model.unaffected] using ha.unaffected hE hd
    exact ⟨hch, ha.no_outgoing hE, fun d hd hend => ha.positive_end hE hd hend, ha.reaches.1,
      Model.path_of_reaches hE (hfree .refl) (hfree hch) ha.known ha.reaches.1,
      fun d hd => ha.head_from hE hd⟩
  · intro c hk hr _ _ _
    refine Model.ends_eq_singleton hE (fun d hd => ?_) hk
    rw [← Model.conflictFactsAt_eq_empty hE, Finset.eq_empty_iff_forall_notMem]
    intro i hi
    have hmem : i ∈ (Model.ofEntries entries).reaching c := by
      rw [Model.reaching, mem_foldr_union]
      exact Or.inl ⟨d, Graph.mem_reach.mpr hd, hi⟩
    rw [hr] at hmem
    cases hmem

/-- The diamond has its head: both ends rotated, and the head of the pair before
both is the pair after both. -/
theorem head_unique_bothRotated :
    ∃ m support, deriveContinuity bothRotated = .ok m ∧
      m.head ⟨aliceOld, bobOld⟩ = .head ⟨aliceNew, bobNew⟩ support ∧
      m.usable.Reaches none ⟨aliceOld, bobOld⟩ ⟨aliceNew, bobNew⟩ ∧
      ¬ ∃ e ∈ m.positive.edges, e.from = ⟨aliceNew, bobNew⟩ := by
  obtain ⟨m, hm, hhead, _⟩ := head_unique bothRotated bothRotated_valid
  have h : (deriveContinuity bothRotated).map (fun m => m.head ⟨aliceOld, bobOld⟩) =
      .ok (.head ⟨aliceNew, bobNew⟩
        [.localDecision ⟨aliceOld, bobOld⟩ (.rotate aliceNew),
          .peerObservation ⟨aliceOld, bobOld⟩ none,
          .peerObservation ⟨aliceOld, bobNew⟩ (some bobOld)]) := by decide +kernel
  rw [hm] at h
  have hanswer := Except.ok.inj h
  have hall := hhead _ _ _ hanswer
  exact ⟨m, _, hm, hanswer, hall.2.2.2.1, hall.2.1⟩

end Estoc.Continuity
