import Estoc.Continuity.Closures
import Estoc.Continuity.Model
import Estoc.Continuity.Search

/-!
# What a derivation contains

The model runs one closure twice, over every fact and then over the facts no
conflict reaches. `derive` is that closure for any choice of facts and channels,
and `derive_spec` says what is in it: each edge replaces exactly the endpoint it
says and rests on facts of the choice; the links the facts declare are edges; a
local link is an edge exactly when an observation confirms its predecessor; and
the edges are closed under joins.

`derive_mono` is the other half. A derivation over more facts that takes more
channels has every edge and every collision of the smaller one, because what the
larger one has is kept by every rule that made the smaller one.
-/

namespace Estoc.Continuity

set_option linter.unusedSectionVars false

theorem mem_foldr_union {α β : Type} [DecidableEq β] {l : List α} {f : α → Finset β}
    {s : Finset β} {i : β} :
    i ∈ l.foldr (fun x s => f x ∪ s) s ↔ (∃ x ∈ l, i ∈ f x) ∨ i ∈ s := by
  induction l with
  | nil => simp
  | cons x l ih =>
      rw [List.foldr_cons, Finset.mem_union, ih]
      simp only [List.mem_cons, exists_eq_or_imp, or_assoc]

theorem mem_supportOf {ι : Type} [DecidableEq ι] {es : List (Edge ι)} {i : ι} :
    i ∈ supportOf es ↔ ∃ e ∈ es, i ∈ e.support := by
  rw [supportOf, mem_foldr_union]
  simp

/-! ## The links facts declare -/

/-- The link replaces exactly the endpoint it says. -/
def Replaces : Side → Channel → Channel → Prop
  | .local, a, b => a.peerDid = b.peerDid ∧ a.localDid ≠ b.localDid
  | .peer, a, b => a.localDid = b.localDid ∧ a.peerDid ≠ b.peerDid

theorem Replaces.side_unique {side side' : Side} {a b : Channel} (h : Replaces side a b)
    (h' : Replaces side' a b) : side = side' := by
  cases side <;> cases side' <;> simp_all [Replaces]

theorem Replaces.ne {side : Side} {a b : Channel} (h : Replaces side a b) : a ≠ b := by
  rintro rfl
  cases side <;> exact h.2 rfl

def Channel.Distinct (c : Channel) : Prop := c.localDid ≠ c.peerDid

/-- The pair a change of `side` at `a` to `successor` makes. -/
def replaced (side : Side) (a : Channel) (successor : Did) : Channel :=
  match side with
  | .local => ⟨successor, a.peerDid⟩
  | .peer => ⟨a.localDid, successor⟩

/-- The end of the link on the side it replaces. -/
def successorOf (side : Side) (b : Channel) : Did :=
  match side with
  | .local => b.localDid
  | .peer => b.peerDid

theorem Replaces.eq_replaced {side : Side} {a b : Channel} (h : Replaces side a b) :
    b = replaced side a (successorOf side b) := by
  cases side
  · exact Channel.ext rfl h.1.symm
  · exact Channel.ext h.1.symm rfl

namespace Entry

/-- The entry claims that a change of `side` leads from `a` to `b`. -/
def Links (e : Entry) (side : Side) (a b : Channel) : Prop :=
  ∃ claim, e.claim = some claim ∧ claim.side = side ∧ claim.at = a ∧ claim.to = some b

/-- The entry of an observation at `c`. -/
def Observes (e : Entry) (c : Channel) : Prop := ∃ d, e.fact = .peerObservation c d

end Entry

/-- Entries as a model holds them: the facts valid, each once. -/
structure Entries.Wf (entries : Entries) : Prop where
  nodup : (entries.map Entry.identity).Nodup
  valid : ∀ {e}, e ∈ entries → e.fact.Valid
  entry : ∀ {e}, e ∈ entries → e = entryOf (identityOf e.fact) e.fact

section Links

variable {entries : Entries} {e : Entry} {side : Side} {a b : Channel}

theorem Entries.Wf.identity (h : entries.Wf) (he : e ∈ entries) :
    e.identity = identityOf e.fact := by
  conv_lhs => rw [h.entry he]
  rfl

theorem Entries.Wf.claim (h : entries.Wf) (he : e ∈ entries) : e.claim = claimOf e.fact := by
  conv_lhs => rw [h.entry he]
  rfl

theorem Entries.Wf.sites (h : entries.Wf) (he : e ∈ entries) {c : Channel} :
    c ∈ e.sites ↔ c = e.fact.at ∨ ∃ claim, e.claim = some claim ∧ claim.at = c := by
  conv_lhs => rw [h.entry he]
  rw [entryOf, mem_sortedChannels, ← h.claim he, List.mem_cons, Option.mem_toList,
    Option.map_eq_some_iff]

theorem Entries.Wf.pairs (h : entries.Wf) (he : e ∈ entries) {c : Channel} :
    c ∈ e.pairs ↔ c ∈ e.sites ∨ ∃ claim, e.claim = some claim ∧ claim.to = some c := by
  have hp : e.pairs = sortedChannels (e.sites ++ (e.claim.bind Claim.to).toList) := by
    rw [h.entry he]
    rfl
  rw [hp, mem_sortedChannels, List.mem_append, Option.mem_toList,
    Option.bind_eq_some_iff]

/-- One entry for an identity. -/
theorem Entries.Wf.eq_of_identity (h : entries.Wf) {e' : Entry} (he : e ∈ entries)
    (he' : e' ∈ entries) (hi : e.identity = e'.identity) : e = e' :=
  List.inj_on_of_nodup_map h.nodup he he' hi

/-- A claim of a valid fact names two pairs that differ in the side it replaces. -/
theorem Entries.Wf.links (h : entries.Wf) (he : e ∈ entries) (hl : e.Links side a b) :
    Replaces side a b ∧ a.Distinct ∧ b.Distinct := by
  obtain ⟨claim, hc, rfl, rfl, hb⟩ := hl
  rw [h.claim he] at hc
  have hv := h.valid he
  match hf : e.fact, hv, hc with
  | .peerObservation c none, _, hc => cases hc
  | .peerObservation c (some d), ⟨hcv, _, hdp, hdl⟩, hc =>
      cases hc
      cases hb
      exact ⟨⟨rfl, hdp⟩, Ne.symm hdl, hcv.distinct⟩
  | .peerEnding c, _, hc => cases hc; cases hb
  | .localDecision c .ending, _, hc => cases hc; cases hb
  | .localDecision c (.rotate d), ⟨hcv, _, hdl, hdp⟩, hc =>
      cases hc
      cases hb
      exact ⟨⟨rfl, Ne.symm hdl⟩, hcv.distinct, hdp⟩

/-- A claim leads somewhere exactly when it is a rotation, and then to the pair
with the endpoint replaced by the successor it names. -/
theorem Entries.Wf.claim_to (h : entries.Wf) (he : e ∈ entries) {claim : Claim}
    (hc : e.claim = some claim) :
    (claim.change = .ending ∧ claim.to = none) ∨
      ∃ d, claim.change = .rotate d ∧ claim.to = some (replaced claim.side claim.at d) := by
  rw [h.claim he] at hc
  match hf : e.fact, hc with
  | .peerObservation c none, hc => cases hc
  | .peerObservation c (some d), hc => cases hc; exact Or.inr ⟨_, rfl, rfl⟩
  | .peerEnding c, hc => cases hc; exact Or.inl ⟨rfl, rfl⟩
  | .localDecision c .ending, hc => cases hc; exact Or.inl ⟨rfl, rfl⟩
  | .localDecision c (.rotate d), hc => cases hc; exact Or.inr ⟨_, rfl, rfl⟩

theorem mem_linksOf {admits : Entry → Bool} {l : Link FactIdentity} :
    l ∈ entries.linksOf side admits ↔
      ∃ e ∈ entries, admits e = true ∧ e.Links side l.from l.to ∧ l.identity = e.identity := by
  rw [Entries.linksOf, List.mem_filterMap]
  constructor
  · rintro ⟨e, he, hl⟩
    split at hl
    · cases hl
    · next claim hclaim =>
      split at hl
      · cases hl
      · next hok =>
        obtain ⟨b, hb, rfl⟩ := Option.map_eq_some_iff.mp hl
        simp only [Bool.or_eq_true, decide_eq_true_eq, Bool.not_eq_true', not_or,
          not_not, Bool.not_eq_false] at hok
        exact ⟨e, he, hok.2, ⟨claim, hclaim, hok.1, rfl, hb⟩, rfl⟩
  · rintro ⟨e, he, hadm, ⟨claim, hclaim, hside, hat, hto⟩, hid⟩
    refine ⟨e, he, ?_⟩
    rw [hclaim]
    simp only [hside, hadm, hto]
    obtain ⟨i, f, t⟩ := l
    cases hid; cases hat
    simp

theorem mem_writersOf {admits : Entry → Bool} :
    e ∈ entries.writersOf admits ↔ e ∈ entries ∧ admits e = true ∧ e.Observes e.fact.at := by
  rw [Entries.writersOf, List.mem_filter]
  match hf : e.fact with
  | .peerObservation c d => simp [Entry.Observes, hf, ContinuityFact.at]
  | .peerEnding c => simp [Entry.Observes, hf]
  | .localDecision c d => simp [Entry.Observes, hf]

end Links

/-! ## Confirmation -/

/-- What confirms a predecessor: an observation to its local DID by a peer that
peer edges lead to from it. -/
def Confirmed (writers : List Entry) (g : Graph FactIdentity) (a : Channel) : Prop :=
  ∃ o ∈ writers, o.fact.at.localDid = a.localDid ∧
    ∃ c, g.Reaches (some .peer) a c ∧ o.fact.at.peerDid = c.peerDid

section Confirming

variable {writers : List Entry} {g : Graph FactIdentity} {l : Link FactIdentity}

private theorem mem_confirmingSupport {channels : List Channel} {peers : List Entry}
    {via : Channel → Finset FactIdentity} {i : FactIdentity} :
    i ∈ channels.foldr (fun channel support =>
        (peers.filter fun e => e.fact.at.peerDid = channel.peerDid).foldr
          (fun o support => insert o.identity (via channel ∪ support)) support) ∅ ↔
      ∃ c ∈ channels, ∃ o ∈ peers, o.fact.at.peerDid = c.peerDid ∧
        (i = o.identity ∨ i ∈ via c) := by
  have hinner : ∀ (os : List Entry) (v s : Finset FactIdentity),
      i ∈ os.foldr (fun o support => insert o.identity (v ∪ support)) s ↔
        (∃ o ∈ os, i = o.identity ∨ i ∈ v) ∨ i ∈ s := by
    intro os v s
    induction os with
    | nil => simp
    | cons o os ih =>
        rw [List.foldr_cons, Finset.mem_insert, Finset.mem_union, ih]
        simp only [List.mem_cons, exists_eq_or_imp, or_assoc]
  induction channels with
  | nil => simp
  | cons c channels ih =>
      rw [List.foldr_cons, hinner]
      simp only [List.mem_cons, exists_eq_or_imp, List.mem_filter, decide_eq_true_eq]
      refine (or_congr_right ih).trans ?_
      constructor
      · rintro (⟨o, ⟨ho, hp⟩, hi⟩ | h)
        · exact Or.inl ⟨o, ho, hp, hi⟩
        · exact Or.inr h
      · rintro (⟨o, ho, hp, hi⟩ | h)
        · exact Or.inl ⟨o, ⟨ho, hp⟩, hi⟩
        · exact Or.inr h

/-- A candidate confirmed rests on an observation and on the edges of a trail of
peer edges to its peer, and on nothing but observations and edges. -/
theorem confirming_some {support : Finset FactIdentity}
    (h : confirming writers g l = some support) :
    (∃ o ∈ writers, o.fact.at.localDid = l.from.localDid ∧ ∃ c es,
      g.Trail (some .peer) l.from es c ∧ o.fact.at.peerDid = c.peerDid ∧
        insert o.identity (supportOf es) ⊆ support) ∧
    ∀ i ∈ support, (∃ o ∈ writers, o.identity = i) ∨ ∃ e ∈ g.edges, i ∈ e.support := by
  rw [confirming] at h
  simp only at h
  split at h
  · cases h
  · split at h
    · cases h
    · next hne =>
      cases h
      constructor
      · obtain ⟨i, hi⟩ := Finset.nonempty_iff_ne_empty.mpr hne
        obtain ⟨c, hc, o, ho, hp, _⟩ := mem_confirmingSupport.mp hi
        obtain ⟨how, hol⟩ := List.mem_filter.mp ho
        obtain ⟨es, hpath, htrail⟩ := (g.reach_spec l.from (some .peer) none).1
          (Reach.mem_channels.mp hc)
        refine ⟨o, how, of_decide_eq_true hol, c, es, htrail, hp, ?_⟩
        intro j hj
        refine mem_confirmingSupport.mpr ⟨c, hc, o, ho, hp, ?_⟩
        rw [hpath]
        exact Finset.mem_insert.mp hj
      · intro i hi
        obtain ⟨c, hc, o, ho, hp, hi⟩ := mem_confirmingSupport.mp hi
        rcases hi with rfl | hi
        · exact Or.inl ⟨o, (List.mem_filter.mp ho).1, rfl⟩
        · obtain ⟨es, hpath, htrail⟩ := (g.reach_spec l.from (some .peer) none).1
            (Reach.mem_channels.mp hc)
          rw [hpath] at hi
          obtain ⟨e, he, hi⟩ := mem_supportOf.mp hi
          exact Or.inr ⟨e, (htrail.mem e he).1, hi⟩

theorem confirming_none : confirming writers g l = none ↔ ¬ Confirmed writers g l.from := by
  constructor
  · rintro h ⟨o, ho, hol, c, hc, hp⟩
    have hpeers : o ∈ writers.filter fun e => e.fact.at.localDid = l.from.localDid :=
      List.mem_filter.mpr ⟨ho, decide_eq_true hol⟩
    rw [confirming] at h
    simp only at h
    split at h
    · next hempty => rw [List.isEmpty_iff.mp hempty] at hpeers; cases hpeers
    · split at h
      · next hempty =>
        have hmem : o.identity ∈ (∅ : Finset FactIdentity) := by
          rw [← hempty]
          exact mem_confirmingSupport.mpr
            ⟨c, Graph.mem_reach.mpr hc, o, hpeers, hp, Or.inl rfl⟩
        cases hmem
      · cases h
  · intro h
    cases hc : confirming writers g l with
    | none => rfl
    | some support =>
        obtain ⟨⟨o, ho, hol, c, es, htrail, hp, _⟩, _⟩ := confirming_some hc
        exact absurd ⟨o, ho, hol, c, htrail.reaches, hp⟩ h

end Confirming

/-! ## Derivations -/

/-- The closure over the entries that are clear, on the channels admitted. -/
abbrev derive (entries : Entries) (clear : Entry → Bool) (admits : Channel → Bool) :
    Closure FactIdentity :=
  closure (entries.peerLinks clear) (entries.candidates clear) admits
    (confirming (entries.writersOf clear))

/-- The facts an edge may rest on. -/
def Entries.Cites (entries : Entries) (clear : Entry → Bool) (i : FactIdentity) : Prop :=
  ∃ e ∈ entries, clear e = true ∧ e.identity = i

/-- What the rules of a derivation keep. -/
structure Kept (entries : Entries) (clear : Entry → Bool) (admits : Channel → Bool)
    (M : Channel → Channel → Side → Finset FactIdentity → Prop)
    (K : List Channel → Finset FactIdentity → Prop) : Prop where
  rules : Graph.Rules admits M K
  peer : ∀ {e a b}, e ∈ entries → clear e = true → e.Links .peer a b →
    admits a = true → admits b = true → M a b .peer {e.identity}
  decision : ∀ {e a b o g es c s}, e ∈ entries → clear e = true → e.Links .local a b →
    admits a = true → admits b = true → o ∈ entries → clear o = true →
    o.Observes o.fact.at → o.fact.at.localDid = a.localDid → Graph.Sound M K g →
    g.Trail (some .peer) a es c → o.fact.at.peerDid = c.peerDid →
    insert o.identity (supportOf es) ⊆ s →
    (∀ i ∈ s, entries.Cites clear i ∨ ∃ x ∈ g.edges, i ∈ x.support) →
    M a b .local (insert e.identity s)

section Derive

variable {entries : Entries} {clear : Entry → Bool} {admits : Channel → Bool}
  {M : Channel → Channel → Side → Finset FactIdentity → Prop}
  {K : List Channel → Finset FactIdentity → Prop}

theorem Kept.justifies (h : Kept entries clear admits M K) :
    Closure.Justifies (entries.peerLinks clear) (entries.candidates clear) admits
      (confirming (entries.writersOf clear)) M K where
  rules := h.rules
  peer l hl ha hb := by
    obtain ⟨e, he, hc, hlinks, hid⟩ := mem_linksOf.mp hl
    rw [hid]
    exact h.peer he hc hlinks ha hb
  candidate {g support} hg l hl hconf ha hb := by
    obtain ⟨e, he, hc, hlinks, hid⟩ := mem_linksOf.mp hl
    obtain ⟨⟨o, ho, hol, c, es, htrail, hp, hsub⟩, hcites⟩ := confirming_some hconf
    obtain ⟨hoe, hoc, hobs⟩ := mem_writersOf.mp ho
    rw [hid]
    refine h.decision he hc hlinks ha hb hoe hoc hobs hol hg htrail hp hsub fun i hi => ?_
    refine (hcites i hi).imp_left ?_
    rintro ⟨w, hw, rfl⟩
    obtain ⟨hwe, hwc, _⟩ := mem_writersOf.mp hw
    exact ⟨w, hwe, hwc, rfl⟩

/-- An edge that replaces the endpoint it says, between pairs of two DIDs each,
and rests on some of the facts. -/
structure Sane (entries : Entries) (clear : Entry → Bool) (a b : Channel) (side : Side)
    (s : Finset FactIdentity) : Prop where
  replaces : Replaces side a b
  distinct_from : a.Distinct
  distinct_to : b.Distinct
  nonempty : s.Nonempty
  cites : ∀ i ∈ s, entries.Cites clear i

theorem Sane.union {a b : Channel} {side : Side} {s t : Finset FactIdentity}
    (h : Sane entries clear a b side s) (ht : ∀ i ∈ t, entries.Cites clear i) :
    Sane entries clear a b side (s ∪ t) :=
  ⟨h.replaces, h.distinct_from, h.distinct_to, h.nonempty.mono Finset.subset_union_left,
    fun i hi => (Finset.mem_union.mp hi).elim (h.cites i) (ht i)⟩

/-- The two edges a join makes are sane, each replacing what the other left. -/
theorem Sane.join {a b d : Channel} {s t : Finset FactIdentity}
    (h : Sane entries clear a b .local s) (h' : Sane entries clear a d .peer t)
    (hne : b.localDid ≠ d.peerDid) :
    Sane entries clear b ⟨b.localDid, d.peerDid⟩ .peer (s ∪ t) ∧
      Sane entries clear d ⟨b.localDid, d.peerDid⟩ .local (s ∪ t) := by
  have hcites : ∀ i ∈ s ∪ t, entries.Cites clear i :=
    fun i hi => (Finset.mem_union.mp hi).elim (h.cites i) (h'.cites i)
  have hnonempty := h.nonempty.mono (Finset.subset_union_left : s ⊆ s ∪ t)
  obtain ⟨hbp, hbl⟩ := h.replaces
  obtain ⟨hdl, hdp⟩ := h'.replaces
  refine ⟨⟨⟨rfl, ?_⟩, h.distinct_to, hne, hnonempty, hcites⟩,
    ⟨⟨rfl, ?_⟩, h'.distinct_to, hne, hnonempty, hcites⟩⟩
  · rw [← hbp]; exact hdp
  · rw [← hdl]; exact hbl

theorem kept_sane (hE : entries.Wf) :
    Kept entries clear admits (Sane entries clear) fun _ s => s.Nonempty where
  rules :=
    { union := fun h h' => h.union h'.cites
      join := fun h h' hne _ => h.join h' hne
      collision := fun h _ _ => h.nonempty.mono Finset.subset_union_left }
  peer he hc hl _ _ := by
    obtain ⟨hr, ha, hb⟩ := hE.links he hl
    refine ⟨hr, ha, hb, Finset.singleton_nonempty _, fun i hi => ?_⟩
    rw [Finset.mem_singleton.mp hi]
    exact ⟨_, he, hc, rfl⟩
  decision he hc hl _ _ _ _ _ _ hg _ _ _ hcites := by
    obtain ⟨hr, ha, hb⟩ := hE.links he hl
    refine ⟨hr, ha, hb, Finset.insert_nonempty _ _, fun i hi => ?_⟩
    rcases Finset.mem_insert.mp hi with rfl | hi
    · exact ⟨_, he, hc, rfl⟩
    · rcases hcites i hi with h | ⟨x, hx, hi⟩
      · exact h
      · exact (hg.edge (Graph.mem_edges.mp hx)).cites i hi

/-- What a derivation contains. -/
structure Derivation (entries : Entries) (clear : Entry → Bool) (admits : Channel → Bool)
    (s : Closure FactIdentity) : Prop where
  sane : ∀ {x}, x ∈ s.graph.edges → Sane entries clear x.from x.to x.replaces x.support
  admitted_ends : ∀ {x}, x ∈ s.graph.edges → admits x.from = true ∧ admits x.to = true
  ends : ∀ {x}, x ∈ s.graph.edges → x.from ∈ s.graph.vertices ∧ x.to ∈ s.graph.vertices
  touched : ∀ {c}, c ∈ s.graph.vertices → ∃ x ∈ s.graph.edges, x.from = c ∨ x.to = c
  nodup : s.graph.vertices.Nodup
  peer : ∀ {e a b}, e ∈ entries → clear e = true → e.Links .peer a b →
    admits a = true → admits b = true → s.graph.Leads (some .peer) a b
  decision : ∀ {e a b}, e ∈ entries → clear e = true → e.Links .local a b →
    Confirmed (entries.writersOf clear) s.graph a →
    ∃ support, (⟨e.identity, a, b⟩, support) ∈ s.admitted
  admitted : ∀ {l support}, (l, support) ∈ s.admitted → admits l.from = true →
    admits l.to = true → s.graph.Leads (some .local) l.from l.to
  admitted_entry : ∀ {l support}, (l, support) ∈ s.admitted →
    ∃ e ∈ entries, clear e = true ∧ e.Links .local l.from l.to ∧ l.identity = e.identity
  waiting_entry : ∀ {l}, l ∈ s.waiting → (∀ support, (l, support) ∉ s.admitted) ∧
    ∃ e ∈ entries, clear e = true ∧ e.Links .local l.from l.to ∧ l.identity = e.identity
  waits : ∀ {e a b}, e ∈ entries → clear e = true → e.Links .local a b →
    (∃ support, (⟨e.identity, a, b⟩, support) ∈ s.admitted) ∨ ⟨e.identity, a, b⟩ ∈ s.waiting
  join : ∀ {a b d}, s.graph.Leads (some .local) a b → s.graph.Leads (some .peer) a d →
    b.localDid ≠ d.peerDid → admits ⟨b.localDid, d.peerDid⟩ = true →
    s.graph.Leads (some .peer) b ⟨b.localDid, d.peerDid⟩ ∧
      s.graph.Leads (some .local) d ⟨b.localDid, d.peerDid⟩
  collision : ∀ {a b d}, s.graph.Leads (some .local) a b → s.graph.Leads (some .peer) a d →
    b.localDid = d.peerDid →
    ∃ c ∈ s.graph.identityCollisions.values, c.channels = [a, b, d]
  collision_support : ∀ {c}, c ∈ s.graph.identityCollisions.values → c.support.Nonempty

theorem leads_some_iff {g : Graph FactIdentity} {side : Side} {a b : Channel} :
    g.Leads (some side) a b ↔ ∃ l, g.out.get? (a, b) = some l ∧ l.replaces = side := by
  constructor
  · rintro ⟨e, he, rfl, rfl, hk⟩
    exact ⟨_, Graph.mem_edges.mp he, ofKind_some.mp hk⟩
  · rintro ⟨l, hl, hs⟩
    exact ⟨{ l with «from» := a, «to» := b }, Graph.mem_edges.mpr hl, rfl, rfl,
      ofKind_some.mpr hs⟩

/-- An edge replaces the side its ends differ in. -/
theorem leads_of_edge {g : Graph FactIdentity} {a b : Channel} {side : Side}
    {l : Label FactIdentity} (hl : g.out.get? (a, b) = some l)
    (hs : Sane entries clear a b l.replaces l.support) (hr : Replaces side a b) :
    g.Leads (some side) a b :=
  leads_some_iff.mpr ⟨l, hl, hs.replaces.side_unique hr⟩

theorem nodup_candidates (hE : entries.Wf) : (entries.candidates clear).Nodup := by
  refine List.Nodup.of_map Link.identity ?_
  refine List.Nodup.sublist ?_ hE.nodup
  have hsub : ∀ l : List Entry,
      ((Entries.linksOf l .local clear).map Link.identity).Sublist (l.map Entry.identity) := by
    intro l
    induction l with
    | nil => exact List.Sublist.refl _
    | cons e l ih =>
        rw [Entries.linksOf, List.filterMap_cons, List.map_cons]
        split
        · exact ih.cons _
        · next x hx =>
          have hid : x.identity = e.identity := by
            split at hx
            · cases hx
            · split at hx
              · cases hx
              · obtain ⟨_, _, rfl⟩ := Option.map_eq_some_iff.mp hx
                rfl
          rw [List.map_cons, hid]
          exact ih.cons_cons _
  exact hsub entries

theorem derive_spec (hE : entries.Wf) :
    Derivation entries clear admits (derive entries clear admits) := by
  obtain ⟨hb, hwaiting⟩ := closure_spec (@kept_sane entries clear admits hE).justifies
  have hsane : ∀ {a b l}, (derive entries clear admits).graph.out.get? (a, b) = some l →
      Sane entries clear a b l.replaces l.support := fun hl => hb.sound.edge hl
  have hkeys : ∀ {x}, x ∈ (derive entries clear admits).graph.edges →
      (x.from, x.to) ∈ (derive entries clear admits).graph.out.keys :=
    fun hx => OMap.mem_keys.mpr ⟨_, Graph.mem_edges.mp hx⟩
  refine
    { sane := fun hx => hsane (Graph.mem_edges.mp hx)
      admitted_ends := ?_, ends := fun hx => hb.sound.ends (hkeys hx), touched := ?_
      nodup := hb.sound.nodup, peer := ?_, decision := ?_, admitted := ?_
      admitted_entry := fun hl => mem_linksOf.mp (hb.justified hl).1
      waiting_entry := fun hl => ⟨fun _ ha => hb.apart (nodup_candidates hE) ha hl,
        mem_linksOf.mp (hb.waiting.subset hl)⟩
      waits := ?_, join := ?_, collision := ?_, collision_support := ?_ }
  · intro x hx
    have := hb.sound.admitted (hkeys hx)
    rwa [hb.admits_eq] at this
  · intro c hc
    obtain ⟨k, hk, hkc⟩ := hb.sound.touched hc
    obtain ⟨l, hl⟩ := OMap.mem_keys.mp hk
    exact ⟨{ l with «from» := k.1, «to» := k.2 }, Graph.mem_edges.mpr hl, hkc⟩
  · intro e a b he hc hl ha hbm
    have hmem : (⟨e.identity, a, b⟩ : Link FactIdentity) ∈ entries.peerLinks clear :=
      mem_linksOf.mpr ⟨e, he, hc, hl, rfl⟩
    obtain ⟨label, hlabel, _⟩ := hb.peer _ hmem ha hbm
    exact leads_of_edge hlabel (hsane hlabel) (hE.links he hl).1
  · intro e a b he hc hl hconf
    have hmem : (⟨e.identity, a, b⟩ : Link FactIdentity) ∈ entries.candidates clear :=
      mem_linksOf.mpr ⟨e, he, hc, hl, rfl⟩
    refine (hb.all hmem).resolve_right fun hw => ?_
    exact confirming_none.mp (hwaiting _ hw) hconf
  · intro l support hl ha hbm
    obtain ⟨label, hlabel, _⟩ := hb.admitted hl ha hbm
    obtain ⟨e, he, hc, hlinks, _⟩ := mem_linksOf.mp (hb.justified hl).1
    exact leads_of_edge hlabel (hsane hlabel) (hE.links he hlinks).1
  · intro e a b he hc hl
    exact hb.all (mem_linksOf.mpr ⟨e, he, hc, hl, rfl⟩)
  · intro a b d hlocal hpeer hne hadm
    obtain ⟨l, hl, hls⟩ := leads_some_iff.mp hlocal
    obtain ⟨m, hm, hms⟩ := leads_some_iff.mp hpeer
    have hj := hb.closed hl hls hm hms
    rw [Graph.Joined, if_neg hne, hb.admits_eq] at hj
    have hboth := (hls ▸ hsane hl).join (hms ▸ hsane hm) hne
    have hends : admits b = true ∧ admits d = true := by
      have h₁ := hb.sound.admitted (OMap.mem_keys.mpr ⟨l, hl⟩)
      have h₂ := hb.sound.admitted (OMap.mem_keys.mpr ⟨m, hm⟩)
      rw [hb.admits_eq] at h₁ h₂
      exact ⟨h₁.2, h₂.2⟩
    obtain ⟨x, hx, _⟩ := hj b List.mem_cons_self hends.1 hadm
    obtain ⟨y, hy, _⟩ := hj d (List.mem_cons_of_mem _ List.mem_cons_self) hends.2 hadm
    exact ⟨leads_of_edge hx (hsane hx) hboth.1.replaces,
      leads_of_edge hy (hsane hy) hboth.2.replaces⟩
  · intro a b d hlocal hpeer he
    obtain ⟨l, hl, hls⟩ := leads_some_iff.mp hlocal
    obtain ⟨m, hm, hms⟩ := leads_some_iff.mp hpeer
    have hj := hb.closed hl hls hm hms
    rw [Graph.Joined, if_pos he] at hj
    obtain ⟨c, hc, _⟩ := hj
    exact ⟨c, OMap.mem_values.mpr ⟨_, hc⟩, (hb.sound.collision hc).1⟩
  · intro c hc
    obtain ⟨k, hk⟩ := OMap.mem_values.mp hc
    exact (hb.sound.collision hk).2

/-- What a derivation keeps holds of its edges and of its collisions. -/
theorem derive_induction (h : Kept entries clear admits M K) :
    (∀ {x}, x ∈ (derive entries clear admits).graph.edges →
      M x.from x.to x.replaces x.support) ∧
    (∀ {c}, c ∈ (derive entries clear admits).graph.identityCollisions.values →
      K c.channels c.support) ∧
    ∀ {l support}, (l, support) ∈ (derive entries clear admits).admitted →
      ∃ g, Graph.Sound M K g ∧ confirming (entries.writersOf clear) g l = some support := by
  have hb := (closure_spec h.justifies).1
  refine ⟨fun hx => hb.sound.edge (Graph.mem_edges.mp hx), ?_, fun hl => (hb.justified hl).2⟩
  intro c hc
  obtain ⟨k, hk⟩ := OMap.mem_values.mp hc
  obtain ⟨he, hK⟩ := hb.sound.collision hk
  rwa [he]

end Derive

/-! ## More facts -/

section Mono

variable {entries entries' : Entries} {clear clear' : Entry → Bool}
  {admits admits' : Channel → Bool}

/-- A choice of facts and channels within another. -/
structure Within (entries : Entries) (clear : Entry → Bool) (admits : Channel → Bool)
    (entries' : Entries) (clear' : Entry → Bool) (admits' : Channel → Bool) : Prop where
  entry : ∀ {e}, e ∈ entries → clear e = true → e ∈ entries' ∧ clear' e = true
  channel : ∀ {c}, admits c = true → admits' c = true

/-- A collision a graph has, by the edges that collide. -/
def Collides (g : Graph FactIdentity) (channels : List Channel) : Prop :=
  ∃ a b d, channels = [a, b, d] ∧ g.Leads (some .local) a b ∧ g.Leads (some .peer) a d ∧
    b.localDid = d.peerDid

theorem reaches_of_sound {g g' : Graph FactIdentity} {K : List Channel → Finset FactIdentity → Prop}
    {M : Channel → Channel → Side → Finset FactIdentity → Prop}
    (hg : Graph.Sound M K g) (hM : ∀ {a b side s}, M a b side s → g'.Leads (some side) a b) :
    ∀ {es : List (Edge FactIdentity)} {side : Side} {a c : Channel},
      g.Trail (some side) a es c → g'.Reaches (some side) a c
  | [], _, _, _, h => by cases h; exact .refl
  | x :: _, _, _, _, ⟨hx, hf, hk, h⟩ => by
      have hlead := hM (hg.edge (Graph.mem_edges.mp hx))
      rw [ofKind_some.mp hk, hf] at hlead
      exact .head hlead (reaches_of_sound hg hM h)

theorem kept_within (hE : entries.Wf) (hE' : entries'.Wf)
    (hw : Within entries clear admits entries' clear' admits') :
    Kept entries clear admits
      (fun a b side s => Sane entries clear a b side s ∧
        (derive entries' clear' admits').graph.Leads (some side) a b)
      (fun channels _ => Collides (derive entries' clear' admits').graph channels) := by
  have hd := @derive_spec entries' clear' admits' hE'
  have hs := @kept_sane entries clear admits hE
  refine ⟨⟨?_, ?_, ?_⟩, ?_, ?_⟩
  · rintro a b side side' s t ⟨h, hl⟩ ⟨h', _⟩
    exact ⟨h.union h'.cites, hl⟩
  · rintro a b d s t ⟨h, hl⟩ ⟨h', hl'⟩ hne hadm
    obtain ⟨hp, hq⟩ := hd.join hl hl' hne (hw.channel hadm)
    exact ⟨⟨(h.join h' hne).1, hp⟩, ⟨(h.join h' hne).2, hq⟩⟩
  · rintro a b d s t ⟨_, hl⟩ ⟨_, hl'⟩ he
    exact ⟨a, b, d, rfl, hl, hl', he⟩
  · intro e a b he hc hl ha hb
    obtain ⟨he', hc'⟩ := hw.entry he hc
    exact ⟨hs.peer he hc hl ha hb, hd.peer he' hc' hl (hw.channel ha) (hw.channel hb)⟩
  · intro e a b o g es c s he hc hl ha hb ho hoc hobs hol hg htrail hp hsub hcites
    obtain ⟨he', hc'⟩ := hw.entry he hc
    obtain ⟨ho', hoc'⟩ := hw.entry ho hoc
    have hgs : Graph.Sound (Sane entries clear) (fun _ _ => True) g :=
      ⟨fun hx => (hg.edge hx).1, fun hx => ⟨(hg.collision hx).1, trivial⟩, hg.ends, hg.touched,
        hg.admitted, hg.nodup⟩
    have hsane : Sane entries clear a b .local (insert e.identity s) := by
      obtain ⟨hr, hda, hdb⟩ := hE.links he hl
      refine ⟨hr, hda, hdb, Finset.insert_nonempty _ _, fun i hi => ?_⟩
      rcases Finset.mem_insert.mp hi with rfl | hi
      · exact ⟨_, he, hc, rfl⟩
      · rcases hcites i hi with h | ⟨x, hx, hi⟩
        · exact h
        · exact (hgs.edge (Graph.mem_edges.mp hx)).cites i hi
    have hreach := reaches_of_sound hg (fun h => h.2) htrail
    obtain ⟨support, hadm⟩ := hd.decision he' hc' hl
      ⟨o, mem_writersOf.mpr ⟨ho', hoc', hobs⟩, hol, c, hreach, hp⟩
    exact ⟨hsane, hd.admitted hadm (hw.channel ha) (hw.channel hb)⟩

/-- More facts and more channels: every edge stays. -/
theorem derive_mono (hE : entries.Wf) (hE' : entries'.Wf)
    (hw : Within entries clear admits entries' clear' admits') {side : Side} {a b : Channel}
    (h : (derive entries clear admits).graph.Leads (some side) a b) :
    (derive entries' clear' admits').graph.Leads (some side) a b := by
  obtain ⟨x, hx, rfl, rfl, hk⟩ := h
  have := ((derive_induction (kept_within hE hE' hw)).1 hx).2
  rwa [ofKind_some.mp hk] at this

theorem derive_collides (hE : entries.Wf) (hE' : entries'.Wf)
    (hw : Within entries clear admits entries' clear' admits')
    {c : IdentityCollision FactIdentity}
    (h : c ∈ (derive entries clear admits).graph.identityCollisions.values) :
    Collides (derive entries' clear' admits').graph c.channels :=
  (derive_induction (kept_within hE hE' hw)).2.1 h

theorem Within.refl : Within entries clear admits entries clear admits :=
  ⟨fun he hc => ⟨he, hc⟩, id⟩

end Mono

end Estoc.Continuity
