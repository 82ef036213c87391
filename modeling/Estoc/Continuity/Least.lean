import Estoc.Continuity.Derived

/-!
# The join closure as a least fixpoint

`Derives` and `Supports` are the join rules on their own: the edges there are and
what each rests on, from a set of declared edges, with no queue and no order.
`close_is_least` says that adding the edges in any order and closing gives exactly
these.

One thing the graph decides by order: an edge keeps the side it was first added
with. The rules can only be its meaning where they never make one pair of channels
an edge of both sides, `OneSided`. Edges that replace exactly the endpoint they say
are of that kind, joins included.
-/

namespace Estoc.Continuity

set_option linter.unusedSectionVars false

variable {ι : Type} [DecidableEq ι]

/-- The pair of both successors of a local edge to `b` and a peer edge to `d`. -/
def joinedPair (b d : Channel) : Channel := ⟨b.localDid, d.peerDid⟩

section Rules

variable (admits : Channel → Bool) (declared : List (Edge ι))

/-- The edges the rules make of the declared ones. -/
inductive Derives : Channel → Channel → Side → Prop
  | declared {e : Edge ι} : e ∈ declared → admits e.from = true → admits e.to = true →
      Derives e.from e.to e.replaces
  | ahead {a b d : Channel} : Derives a b .local → Derives a d .peer →
      b.localDid ≠ d.peerDid → admits (joinedPair b d) = true → Derives b (joinedPair b d) .peer
  | across {a b d : Channel} : Derives a b .local → Derives a d .peer →
      b.localDid ≠ d.peerDid → admits (joinedPair b d) = true → Derives d (joinedPair b d) .local

/-- What the edges the rules make rest on. -/
inductive Supports : Channel → Channel → ι → Prop
  | declared {e : Edge ι} {i : ι} : e ∈ declared → admits e.from = true →
      admits e.to = true → i ∈ e.support → Supports e.from e.to i
  | joined {a b d c x : Channel} {i : ι} : Derives admits declared a b .local →
      Derives admits declared a d .peer → b.localDid ≠ d.peerDid →
      admits (joinedPair b d) = true → c ∈ [b, d] → x ∈ [b, d] → Supports a c i →
      Supports x (joinedPair b d) i

/-- The pairs of a local and a peer edge whose join would pair a DID with itself. -/
def CollidesAt (a b d : Channel) : Prop :=
  Derives admits declared a b .local ∧ Derives admits declared a d .peer ∧
    b.localDid = d.peerDid

/-- The rules make no pair of channels an edge of both sides. -/
def OneSided : Prop :=
  ∀ a b, Derives admits declared a b .local → ¬ Derives admits declared a b .peer

end Rules

variable {admits : Channel → Bool} {declared : List (Edge ι)}

/-- Edges that replace exactly the endpoint they say join to edges that do. -/
theorem Derives.replaces (h : ∀ e ∈ declared, Replaces e.replaces e.from e.to) {a b : Channel}
    {side : Side} (hd : Derives admits declared a b side) : Replaces side a b := by
  induction hd with
  | declared he _ _ => exact h _ he
  | ahead _ _ _ _ hl hp => exact ⟨rfl, fun heq => hp.2 (hl.1.trans heq)⟩
  | across _ _ _ _ hl hp => exact ⟨rfl, fun heq => hl.2 (hp.1.trans heq)⟩

theorem oneSided_of_replaces (h : ∀ e ∈ declared, Replaces e.replaces e.from e.to) :
    OneSided admits declared := by
  intro a b hl hp
  have := (hl.replaces h).side_unique (hp.replaces h)
  cases this

/-- The edges there are depend on the ends and the sides of the declared ones alone, and more
of those make no fewer. -/
theorem Derives.of_ends {ι' : Type} {declared' : List (Edge ι')}
    (h : ∀ e ∈ declared, ∃ e' ∈ declared',
      e'.from = e.from ∧ e'.to = e.to ∧ e'.replaces = e.replaces)
    {a b : Channel} {side : Side} (hd : Derives admits declared a b side) :
    Derives admits declared' a b side := by
  induction hd with
  | declared he ha hb =>
      obtain ⟨e', he', hfrom, hto, hside⟩ := h _ he
      rw [← hfrom, ← hto, ← hside]
      exact .declared he' (hfrom ▸ ha) (hto ▸ hb)
  | ahead _ _ hne hj hl hp => exact .ahead hl hp hne hj
  | across _ _ hne hj hl hp => exact .across hl hp hne hj

theorem Derives.mono {declared' : List (Edge ι)} (h : ∀ e ∈ declared, e ∈ declared')
    {a b : Channel} {side : Side} (hd : Derives admits declared a b side) :
    Derives admits declared' a b side := hd.of_ends fun e he => ⟨e, h e he, rfl, rfl, rfl⟩

theorem Supports.mono {declared' : List (Edge ι)} (h : ∀ e ∈ declared, e ∈ declared')
    {a b : Channel} {i : ι} (hs : Supports admits declared a b i) :
    Supports admits declared' a b i := by
  induction hs with
  | declared he ha hb hi => exact .declared (h _ he) ha hb hi
  | joined hl hp hne hj hc hx _ ih => exact .joined (hl.mono h) (hp.mono h) hne hj hc hx ih

namespace Graph

/-! ## What the rules keep of a graph -/

/-- An edge the rules make, resting on what they give it. -/
def Made (admits : Channel → Bool) (declared : List (Edge ι)) (a b : Channel) (side : Side)
    (s : Finset ι) : Prop :=
  Derives admits declared a b side ∧ ∀ i ∈ s, Supports admits declared a b i

/-- A collision the rules make, resting on what they give its two edges. -/
def MadeCollision (admits : Channel → Bool) (declared : List (Edge ι)) (channels : List Channel)
    (s : Finset ι) : Prop :=
  ∃ a b d, channels = [a, b, d] ∧ CollidesAt admits declared a b d ∧
    ∀ i ∈ s, Supports admits declared a b i ∨ Supports admits declared a d i

theorem rules_made : Rules admits (Made admits declared) (MadeCollision admits declared) where
  union h h' := ⟨h.1, fun i hi => (Finset.mem_union.mp hi).elim (h.2 i) (h'.2 i)⟩
  join := by
    rintro a b d s t ⟨hl, hs⟩ ⟨hp, ht⟩ hne hj
    have hjoined : ∀ {i x}, i ∈ s ∪ t → x ∈ [b, d] →
        Supports admits declared x (joinedPair b d) i := by
      intro i x hi hx
      rcases Finset.mem_union.mp hi with hi | hi
      · exact .joined hl hp hne hj List.mem_cons_self hx (hs i hi)
      · exact .joined hl hp hne hj (by simp) hx (ht i hi)
    exact ⟨⟨.ahead hl hp hne hj, fun i hi => hjoined hi List.mem_cons_self⟩,
      ⟨.across hl hp hne hj, fun i hi => hjoined hi (by simp)⟩⟩
  collision := by
    rintro a b d s t ⟨hl, hs⟩ ⟨hp, ht⟩ heq
    exact ⟨a, b, d, rfl, ⟨hl, hp, heq⟩, fun i hi =>
      (Finset.mem_union.mp hi).imp (hs i) (ht i)⟩

/-! ## Which edges were declared

An addition that is no join clears the mark of one, and none sets it again. -/

/-- An edge is unmarked exactly where `D` holds. -/
def Flagged (D : Channel × Channel → Prop) (g : Graph ι) : Prop :=
  (∀ k l, g.out.get? k = some l → (l.derived = false ↔ D k)) ∧ ∀ k, D k → k ∈ g.out.keys

theorem Flagged.congr {D D' : Channel × Channel → Prop} {g : Graph ι} (h : Flagged D g)
    (hD : ∀ k, D k ↔ D' k) : Flagged D' g :=
  ⟨fun k l hl => (h.1 k l hl).trans (hD k), fun k hk => h.2 k ((hD k).mpr hk)⟩

theorem Flagged.add {D : Channel × Channel → Prop} {g : Graph ι} (h : Flagged D g)
    (a b : Channel) (side : Side) (support : Finset ι) (derived : Bool) :
    Flagged (fun k => D k ∨ (g.admits a = true ∧ g.admits b = true ∧ derived = false) ∧
      k = (a, b)) (g.add a b side support derived) := by
  by_cases hadm : g.admits a = true ∧ g.admits b = true
  · refine ⟨fun k l hl => ?_, fun k hk => ?_⟩
    · rw [add_out hadm, OMap.get?_set] at hl
      split at hl
      · next e =>
        subst e
        obtain rfl := Option.some.inj hl
        cases hold : g.out.get? (a, b) with
        | none =>
            have hnot : ¬ D (a, b) := fun hd =>
              OMap.get?_eq_none.mp hold (h.2 _ hd)
            simp [grown, hnot, hadm]
        | some l =>
            have hflag := h.1 _ _ hold
            cases hl : l.derived <;> cases derived <;> simp_all [grown]
      · next hne =>
        simpa [hne] using h.1 k l hl
    · rw [add_out hadm, OMap.mem_keys_set]
      exact hk.imp (h.2 k) And.right
  · rw [add_of_not_admits hadm]
    exact h.congr fun k => by tauto

theorem Flagged.join {D : Channel × Channel → Prop} {g : Graph ι} (h : Flagged D g)
    (ours peer : Edge ι) : Flagged D (g.join ours peer) := by
  rw [Graph.join]
  simp only
  split
  · exact h
  · exact ((h.add _ _ _ _ true).add _ _ _ _ true).congr fun k => by simp

theorem Flagged.pair {D : Channel × Channel → Prop} {g : Graph ι} (h : Flagged D g)
    (key partner : Channel × Channel) : Flagged D (g.pair key partner) := by
  rw [Graph.pair]
  split
  · split
    · exact h
    · split <;> exact h.join _ _
  · exact h

theorem Flagged.step {D : Channel × Channel → Prop} {g g' : Graph ι} (h : Flagged D g)
    (hs : g.closeStep = some g') : Flagged D g' := by
  have hmeet : ∀ (key : Channel × Channel) (rest : List (Channel × Channel)) (g : Graph ι),
      Flagged D g → Flagged D (rest.foldl (fun g p => g.pair key p) g) := by
    intro key rest
    induction rest with
    | nil => exact fun _ hg => hg
    | cons p rest ih => exact fun g hg => ih _ (hg.pair key p)
  match hq : g.queue with
  | [] => rw [closeStep, hq] at hs; cases hs
  | (a, b) :: rest =>
      rw [closeStep_eq hq] at hs
      cases hs
      exact hmeet _ _ _ h

theorem Flagged.close {D : Channel × Channel → Prop} {g : Graph ι} (h : Flagged D g) :
    Flagged D g.close := Loop.run_inv (Flagged D) (fun _ _ h hs => h.step hs) h

/-- Some addition that is no join asks for the edge. -/
def Declares (admits : Channel → Bool) (declared : List (Edge ι)) (k : Channel × Channel) : Prop :=
  ∃ e ∈ declared, (admits e.from = true ∧ admits e.to = true ∧ e.derived = false) ∧
    k = (e.from, e.to)

theorem Flagged.addEach {D : Channel × Channel → Prop} {edges : List (Edge ι)} {g : Graph ι}
    (h : Flagged D g) :
    Flagged (fun k => D k ∨ Declares g.admits edges k) (Closure.addEach edges g) := by
  induction edges generalizing g D with
  | nil => exact h.congr fun k => by simp [Declares]
  | cons e edges ih =>
      have hstep := ih (h.add e.from e.to e.replaces e.support e.derived)
      rw [add_admits] at hstep
      refine hstep.congr fun k => ?_
      simp only [Declares, List.mem_cons, exists_eq_or_imp, or_assoc]

/-! ## Declared edges closed -/

/-- The graph of the declared edges, before it is closed. -/
def declare (admits : Channel → Bool) (declared : List (Edge ι)) : Graph ι :=
  Closure.addEach declared (new admits)

/-- What closing the declared edges leaves behind. -/
structure Made.Closed (admits : Channel → Bool) (declared : List (Edge ι)) (g : Graph ι) :
    Prop where
  admits_eq : g.admits = admits
  sound : Sound (Made admits declared) (MadeCollision admits declared) g
  closed : g.Closed
  queue : g.queue = []
  declares : ∀ e ∈ declared, admits e.from = true → admits e.to = true →
    ∃ l, g.out.get? (e.from, e.to) = some l ∧ e.support ⊆ l.support
  flagged : Flagged (Declares admits declared) g

theorem declare_close (admits : Channel → Bool) (declared : List (Edge ι)) :
    Made.Closed admits declared (declare admits declared).close := by
  obtain ⟨hadded, hhas⟩ := @Closure.addEach_spec _ _ (Made admits declared)
    (MadeCollision admits declared) declared (new admits) rules_made
    (fun e he ha hb => ⟨.declared he ha hb, fun i hi => .declared he ha hb hi⟩) sound_new queued_new
  have hadm : (declare admits declared).admits = admits := hadded.grows.admits
  obtain ⟨⟨hsound, hext, hclosing⟩, hqueue⟩ :=
    close_run (hadm.symm ▸ rules_made) hadded.sound hadded.queued
  have hflags : Flagged (fun _ => False) (new admits : Graph ι) :=
    ⟨fun _ _ h => (nomatch h), fun _ h => h.elim⟩
  refine ⟨hext.admits.trans hadm, hsound, hclosing.closed hqueue, hqueue, ?_, ?_⟩
  · intro e he ha hb
    obtain ⟨l, hl, hsub⟩ := hhas e he ha hb
    obtain ⟨l', hl', _, hsub'⟩ := hext.edge hl
    exact ⟨l', hl', hsub.trans hsub'⟩
  · exact hflags.addEach.close.congr fun k => iff_of_eq (false_or _)

section Closed

variable {admits : Channel → Bool} {declared : List (Edge ι)} {g : Graph ι}

/-- An edge of the graph is of the side the rules make it of. -/
theorem Made.Closed.side (h : Made.Closed admits declared g) (hone : OneSided admits declared)
    {a b : Channel} {side : Side} (hd : Derives admits declared a b side) {l : Label ι}
    (hl : g.out.get? (a, b) = some l) : l.replaces = side := by
  have hmade := (h.sound.edge hl).1
  match hr : l.replaces, side with
  | .local, .local => rfl
  | .peer, .peer => rfl
  | .local, .peer => exact absurd hd (hone a b (hr ▸ hmade))
  | .peer, .local => exact absurd (hr ▸ hmade) (hone a b hd)

/-- The joins of a local and a peer edge that are there are there. -/
theorem Made.Closed.joins (h : Made.Closed admits declared g) {a b d : Channel} {l m : Label ι}
    (hl : g.out.get? (a, b) = some l) (hls : l.replaces = .local)
    (hm : g.out.get? (a, d) = some m) (hms : m.replaces = .peer)
    (hne : b.localDid ≠ d.peerDid) (hj : admits (joinedPair b d) = true) {x : Channel}
    (hx : x ∈ [b, d]) :
    ∃ l', g.out.get? (x, joinedPair b d) = some l' ∧ l.support ∪ m.support ⊆ l'.support := by
  have hjoined := h.closed hl hls hm hms
  rw [Joined, if_neg hne] at hjoined
  have hb := (h.sound.admitted (OMap.mem_keys.mpr ⟨l, hl⟩)).2
  have hd := (h.sound.admitted (OMap.mem_keys.mpr ⟨m, hm⟩)).2
  refine hjoined x hx ?_ (h.admits_eq.symm ▸ hj)
  rcases List.mem_cons.mp hx with rfl | hx
  · exact hb
  · exact List.mem_singleton.mp hx ▸ hd

theorem Made.Closed.derives (h : Made.Closed admits declared g) (hone : OneSided admits declared)
    {a b : Channel} {side : Side} (hd : Derives admits declared a b side) :
    ∃ l, g.out.get? (a, b) = some l ∧ l.replaces = side := by
  have hside := fun {a b : Channel} {side : Side} => @Made.Closed.side _ _ _ _ _ h hone a b side
  have hd' := hd
  induction hd with
  | declared he ha hb =>
      obtain ⟨l, hl, _⟩ := h.declares _ he ha hb
      exact ⟨l, hl, hside hd' hl⟩
  | ahead hdl hdp hne hj ihl ihp =>
      obtain ⟨l, hl, hls⟩ := ihl hdl
      obtain ⟨m, hm, hms⟩ := ihp hdp
      obtain ⟨l', hl', _⟩ := h.joins hl hls hm hms hne hj List.mem_cons_self
      exact ⟨l', hl', hside hd' hl'⟩
  | across hdl hdp hne hj ihl ihp =>
      obtain ⟨l, hl, hls⟩ := ihl hdl
      obtain ⟨m, hm, hms⟩ := ihp hdp
      obtain ⟨l', hl', _⟩ := h.joins hl hls hm hms hne hj (List.mem_cons_of_mem _ List.mem_cons_self)
      exact ⟨l', hl', hside hd' hl'⟩

theorem Made.Closed.supports (h : Made.Closed admits declared g) (hone : OneSided admits declared)
    {a b : Channel} {i : ι} (hs : Supports admits declared a b i) :
    ∃ l, g.out.get? (a, b) = some l ∧ i ∈ l.support := by
  induction hs with
  | declared he ha hb hi =>
      obtain ⟨l, hl, hsub⟩ := h.declares _ he ha hb
      exact ⟨l, hl, hsub hi⟩
  | joined hdl hdp hne hj hc hx _ ih =>
      obtain ⟨l, hl, hls⟩ := h.derives hone hdl
      obtain ⟨m, hm, hms⟩ := h.derives hone hdp
      obtain ⟨l', hl', hsub⟩ := h.joins hl hls hm hms hne hj hx
      refine ⟨l', hl', hsub (Finset.mem_union.mpr ?_)⟩
      -- the edge the identity came from is one of the two joined
      obtain ⟨n, hn, hi⟩ := ih
      rcases List.mem_cons.mp hc with rfl | hc
      · exact Or.inl (Option.some.inj (hl.symm.trans hn) ▸ hi)
      · obtain rfl := List.mem_singleton.mp hc
        exact Or.inr (Option.some.inj (hm.symm.trans hn) ▸ hi)

end Closed

/-! ## The least fixpoint -/

/-- The graph has the edges, the supports, the marks and the collisions the rules make of the
declared edges, and no other. -/
structure IsLeast (admits : Channel → Bool) (declared : List (Edge ι)) (g : Graph ι) : Prop where
  edge : ∀ a b side, (∃ l, g.out.get? (a, b) = some l ∧ l.replaces = side) ↔
    Derives admits declared a b side
  support : ∀ a b l, g.out.get? (a, b) = some l →
    ∀ i, i ∈ l.support ↔ Supports admits declared a b i
  derived : ∀ a b l, g.out.get? (a, b) = some l →
    (l.derived = true ↔ ¬ ∃ e ∈ declared, e.from = a ∧ e.to = b ∧ e.derived = false)
  collision : ∀ channels, (∃ c, g.identityCollisions.get? channels = some c) ↔
    ∃ a b d, channels = [a, b, d] ∧ CollidesAt admits declared a b d
  collides : ∀ a b d c, g.identityCollisions.get? [a, b, d] = some c →
    c.channels = [a, b, d] ∧
      ∀ i, i ∈ c.support ↔ Supports admits declared a b i ∨ Supports admits declared a d i

theorem Made.Closed.isLeast {admits : Channel → Bool} {declared : List (Edge ι)} {g : Graph ι}
    (h : Made.Closed admits declared g) (hone : OneSided admits declared) :
    IsLeast admits declared g := by
  have hcollides : ∀ {a b d}, CollidesAt admits declared a b d → ∃ l m c,
      g.out.get? (a, b) = some l ∧ g.out.get? (a, d) = some m ∧
      g.identityCollisions.get? [a, b, d] = some c ∧ l.support ∪ m.support ⊆ c.support := by
    rintro a b d ⟨hdl, hdp, heq⟩
    obtain ⟨l, hl, hls⟩ := h.derives hone hdl
    obtain ⟨m, hm, hms⟩ := h.derives hone hdp
    have hjoined := h.closed hl hls hm hms
    rw [Joined, if_pos heq] at hjoined
    obtain ⟨c, hc, hsub⟩ := hjoined
    exact ⟨l, m, c, hl, hm, hc, hsub⟩
  refine ⟨fun a b side => ⟨?_, h.derives hone⟩, fun a b l hl i => ⟨?_, ?_⟩, ?_, ?_, ?_⟩
  · rintro ⟨l, hl, rfl⟩
    exact (h.sound.edge hl).1
  · exact (h.sound.edge hl).2 i
  · intro hs
    obtain ⟨l', hl', hi⟩ := h.supports hone hs
    exact Option.some.inj (hl'.symm.trans hl) ▸ hi
  · intro a b l hl
    obtain ⟨ha, hb⟩ := h.sound.admitted (OMap.mem_keys.mpr ⟨l, hl⟩)
    rw [h.admits_eq] at ha hb
    rw [← Bool.not_eq_false, not_iff_not, h.flagged.1 _ _ hl]
    constructor
    · rintro ⟨e, he, ⟨_, _, hd⟩, hk⟩
      obtain ⟨rfl, rfl⟩ := Prod.mk.inj hk
      exact ⟨e, he, rfl, rfl, hd⟩
    · rintro ⟨e, he, rfl, rfl, hd⟩
      exact ⟨e, he, ⟨ha, hb, hd⟩, rfl⟩
  · intro channels
    constructor
    · rintro ⟨c, hc⟩
      obtain ⟨a, b, d, rfl, hat, _⟩ := (h.sound.collision hc).2
      exact ⟨a, b, d, rfl, hat⟩
    · rintro ⟨a, b, d, rfl, hat⟩
      obtain ⟨_, _, c, _, _, hc, _⟩ := hcollides hat
      exact ⟨c, hc⟩
  · intro a b d c hc
    obtain ⟨hchannels, a', b', d', hk, hat, hs⟩ := h.sound.collision hc
    simp only [List.cons.injEq, and_true] at hk
    obtain ⟨rfl, rfl, rfl⟩ := hk
    refine ⟨hchannels, fun i => ⟨hs i, fun hi => ?_⟩⟩
    obtain ⟨l, m, c', hl, hm, hc', hsub⟩ := hcollides hat
    obtain rfl := Option.some.inj (hc'.symm.trans hc)
    refine hsub (Finset.mem_union.mpr (hi.imp (fun hi => ?_) fun hi => ?_))
    · obtain ⟨l', hl', hi⟩ := h.supports hone hi
      exact Option.some.inj (hl'.symm.trans hl) ▸ hi
    · obtain ⟨m', hm', hi⟩ := h.supports hone hi
      exact Option.some.inj (hm'.symm.trans hm) ▸ hi

/-- Two lists that declare the same edges are given the same by the rules. -/
theorem IsLeast.congr {admits : Channel → Bool} {declared declared' : List (Edge ι)}
    {g : Graph ι} (h : IsLeast admits declared g) (hsame : ∀ e, e ∈ declared' ↔ e ∈ declared) :
    IsLeast admits declared' g := by
  have hd : ∀ {a b side}, Derives admits declared a b side ↔ Derives admits declared' a b side :=
    ⟨.mono fun e he => (hsame e).mpr he, .mono fun e he => (hsame e).mp he⟩
  have hs : ∀ {a b i}, Supports admits declared a b i ↔ Supports admits declared' a b i :=
    ⟨.mono fun e he => (hsame e).mpr he, .mono fun e he => (hsame e).mp he⟩
  refine ⟨fun a b side => (h.edge a b side).trans hd,
    fun a b l hl i => (h.support a b l hl i).trans hs, fun a b l hl => ?_, fun channels => ?_,
    fun a b d c hc => ⟨(h.collides a b d c hc).1, fun i => ?_⟩⟩
  · simp only [hsame]
    exact h.derived a b l hl
  · simp only [h.collision, CollidesAt, hd]
  · rw [(h.collides a b d c hc).2, hs, hs]

/-- The rules leave no choice: two graphs of the same declared edges have the same edges and
collisions. -/
theorem IsLeast.unique {admits : Channel → Bool} {declared : List (Edge ι)} {g g' : Graph ι}
    (h : IsLeast admits declared g) (h' : IsLeast admits declared g') :
    (∀ k, g'.out.get? k = g.out.get? k) ∧
      ∀ channels, g'.identityCollisions.get? channels = g.identityCollisions.get? channels := by
  refine ⟨fun k => Option.ext fun l => ?_, fun channels => Option.ext fun c => ?_⟩
  · -- an edge of the one is an edge of the other, with the same label
    have hedge : ∀ {g g' : Graph ι}, IsLeast admits declared g → IsLeast admits declared g' →
        g.out.get? k = some l → g'.out.get? k = some l := by
      intro g g' h h' hl
      obtain ⟨l', hl', hside⟩ := (h'.edge k.1 k.2 l.replaces).mpr
        ((h.edge k.1 k.2 l.replaces).mp ⟨l, hl, rfl⟩)
      have hsupport : l'.support = l.support := by
        ext i
        rw [h'.support _ _ _ hl', h.support _ _ _ hl]
      have hderived : l'.derived = l.derived := by
        rw [Bool.eq_iff_iff, h'.derived _ _ _ hl', h.derived _ _ _ hl]
      obtain ⟨side, support, derived⟩ := l'
      obtain rfl : side = l.replaces := hside
      obtain rfl : support = l.support := hsupport
      obtain rfl : derived = l.derived := hderived
      exact hl'
    exact ⟨hedge h' h, hedge h h'⟩
  · have hcollision : ∀ {g g' : Graph ι}, IsLeast admits declared g → IsLeast admits declared g' →
        g.identityCollisions.get? channels = some c →
        g'.identityCollisions.get? channels = some c := by
      intro g g' h h' hc
      obtain ⟨a, b, d, rfl, hat⟩ := (h.collision channels).mp ⟨c, hc⟩
      obtain ⟨c', hc'⟩ := (h'.collision _).mpr ⟨a, b, d, rfl, hat⟩
      obtain ⟨hchannels, hsupport⟩ := h.collides a b d c hc
      obtain ⟨hchannels', hsupport'⟩ := h'.collides a b d c' hc'
      have heq : c'.support = c.support := by
        ext i
        rw [hsupport', hsupport]
      obtain ⟨channels', support⟩ := c'
      obtain rfl : channels' = c.channels := hchannels'.trans hchannels.symm
      obtain rfl : support = c.support := heq
      exact hc'
    exact ⟨hcollision h' h, hcollision h h'⟩

/-- Closing the declared edges ends; and where the rules make no pair of channels an edge of
both sides it leaves exactly their least fixpoint, whatever order and repetition the edges
were added in. -/
theorem close_is_least (admits : Channel → Bool) (declared : List (Edge ι)) :
    closeStep (declare admits declared).close = none ∧
    (OneSided admits declared →
      IsLeast admits declared (declare admits declared).close ∧
      ∀ declared' : List (Edge ι), (∀ e, e ∈ declared' ↔ e ∈ declared) →
        (∀ k, (declare admits declared').close.out.get? k =
          (declare admits declared).close.out.get? k) ∧
        ∀ channels, (declare admits declared').close.identityCollisions.get? channels =
          (declare admits declared).close.identityCollisions.get? channels) := by
  have h := declare_close admits declared
  refine ⟨by rw [closeStep, h.queue], fun hone => ⟨h.isLeast hone, fun declared' hsame => ?_⟩⟩
  have hone' : OneSided admits declared' := fun a b hl hp =>
    hone a b (hl.mono fun e he => (hsame e).mp he) (hp.mono fun e he => (hsame e).mp he)
  have hleast' := (declare_close admits declared').isLeast hone'
  exact (h.isLeast hone).unique (hleast'.congr fun e => (hsame e).symm)

/-! ## Two edges that disagree

The peer's and our own replacement leaving one pair, and the same two channels declared an
edge of both sides, which no replacement is. -/

def oursAndTheirs : List (Edge Nat) :=
  [{ replaces := .local, support := {1}, derived := false
     «from» := ⟨aliceOld, bobOld⟩, «to» := ⟨aliceNew, bobOld⟩ },
   { replaces := .peer, support := {2}, derived := false
     «from» := ⟨aliceOld, bobOld⟩, «to» := ⟨aliceOld, bobNew⟩ }]

def ofBothSides : List (Edge Nat) :=
  [{ replaces := .local, support := {1}, derived := false
     «from» := ⟨aliceOld, bobOld⟩, «to» := ⟨aliceNew, bobOld⟩ },
   { replaces := .peer, support := {2}, derived := false
     «from» := ⟨aliceOld, bobOld⟩, «to» := ⟨aliceNew, bobOld⟩ }]

theorem close_is_least_example :
    closeStep (declare (fun _ => true) oursAndTheirs).close = none ∧
      IsLeast (fun _ => true) oursAndTheirs (declare (fun _ => true) oursAndTheirs).close ∧
      (declare (fun _ => true) oursAndTheirs.reverse).close.out.get?
          (⟨aliceNew, bobOld⟩, ⟨aliceNew, bobNew⟩) =
        (declare (fun _ => true) oursAndTheirs).close.out.get?
          (⟨aliceNew, bobOld⟩, ⟨aliceNew, bobNew⟩) := by
  have hone : OneSided (fun _ => true) oursAndTheirs := by
    refine oneSided_of_replaces fun e he => ?_
    simp only [oursAndTheirs, List.mem_cons, List.not_mem_nil, or_false] at he
    rcases he with rfl | rfl
    · exact ⟨rfl, by decide⟩
    · exact ⟨rfl, by decide⟩
  obtain ⟨hend, hleast⟩ := close_is_least (fun _ => true) oursAndTheirs
  obtain ⟨hleast, hsame⟩ := hleast hone
  exact ⟨hend, hleast, (hsame oursAndTheirs.reverse fun e => List.mem_reverse).1 _⟩

/-- The side of an edge is the one it was first added with. -/
theorem first_side_stays :
    ofBothSides.Perm ofBothSides.reverse ∧
      ((declare (fun _ => true) ofBothSides).close.out.get?
        (⟨aliceOld, bobOld⟩, ⟨aliceNew, bobOld⟩)).map Label.replaces = some .local ∧
      ((declare (fun _ => true) ofBothSides.reverse).close.out.get?
        (⟨aliceOld, bobOld⟩, ⟨aliceNew, bobOld⟩)).map Label.replaces = some .peer :=
  ⟨(List.reverse_perm _).symm, by decide +kernel, by decide +kernel⟩

end Graph

end Estoc.Continuity
