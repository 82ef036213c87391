import Estoc.Continuity.Arrival
import Estoc.Continuity.Head
import Estoc.Continuity.Support

/-!
# The pairwise root

The fold's walk back to the earliest address of a peer: from a channel over the
peer's replacements that lead to it, the local DID fixed. What the walk minds are
the positive links, for no address it answers may have one leading to it; what it
goes back over are the usable ones, for only those carry authority. It refuses where
the two differ, at a conflict, and where it ends at more than one address.

So the channels it saw are all that any usable path of the peer's links could come
from, and two channels on one such path are led back to the same address.
-/

namespace Estoc.Continuity

set_option linter.unusedSectionVars false

/-- The peer's earliest address, with the facts that re-derive the replacements walked. -/
inductive PeerRoot where
  | found (peerDid : Did) (support : List ContinuityFact)
  | conflict (because : String)
deriving DecidableEq

/-- Why a walk back is cut short. -/
inductive WalkStop where
  | conflictAt (current : Channel)
  | unusable (link : PositiveLink)
deriving DecidableEq

/-- The addresses nothing leads to, the channels met, and those of them still to look
behind, the last met first. -/
structure BackWalk where
  roots : List Did
  reached : List Channel
  frontier : List Channel
  stop : Option WalkStop

namespace BackWalk

/-- The channel comes off the frontier; where no link leads to it, it is a root. -/
def visit (walk : BackWalk) (links : List PositiveLink) (current : Channel)
    (frontier : List Channel) : BackWalk :=
  let roots := if links.isEmpty then walk.roots ++ [current.peerDid] else walk.roots
  { walk with roots := roots, frontier := frontier }

/-- The links that lead to one channel: what they lead from is looked behind later, unless
it was met before. -/
def expand : List PositiveLink → BackWalk → BackWalk
  | [], walk => walk
  | link :: rest, walk =>
    if !link.usable then { walk with stop := some (.unusable link) }
    else if link.from ∈ walk.reached then expand rest walk
    else expand rest
      { walk with reached := walk.reached ++ [link.from], frontier := link.from :: walk.frontier }

end BackWalk

namespace Model

variable (m : Model)

/-- The peer's replacements that lead to a channel of the same local DID. -/
def leadingTo (channel current : Channel) : List PositiveLink :=
  (m.history channel).links.filter fun link =>
    link.replaces = .peer && link.to.localDid = channel.localDid && link.to = current

def walkBack (channel : Channel) (walk : BackWalk) : Option BackWalk :=
  match walk.stop, walk.frontier with
  | some _, _ => none
  | none, [] => none
  | none, current :: frontier =>
    if m.conflicts.any fun conflict => current ∈ conflict.scope then
      some { walk with frontier := frontier, stop := some (.conflictAt current) }
    else
      let links := m.leadingTo channel current
      some (BackWalk.expand links (walk.visit links current frontier))

/-- Everything the walk meets, each channel once. -/
def walkedBack (channel : Channel) : BackWalk :=
  Loop.run (m.walkBack channel) ((m.history channel).links.length + 1)
    ⟨[], [channel], [channel], none⟩

/-- A replacement the positive history shows but the usable one does not, read off the
claims it rests on. -/
def unusableReplacement (link : PositiveLink) : Except InvalidFact PeerRoot := do
  let claims := link.support.filter fun fact =>
    match fact with
    | .peerObservation _ none => false
    | _ => true
  let statuses ← claims.mapM m.status
  let because :=
    match statuses.find? fun status => !(status matches .usable _) with
    | some (.conflict _ because) => ": conflict: " ++ because
    | some (.waiting because) => ": waiting: " ++ because
    | some .unknown => ": unknown"
    | _ => ""
  pure (.conflict ("the replacement of " ++ link.from.peerDid.text ++ " by " ++
    link.to.peerDid.text ++ " is not usable" ++ because))

def peerRoot (channel : Channel) : Except InvalidFact PeerRoot :=
  let walk := m.walkedBack channel
  match walk.stop, walk.roots with
  | some (.conflictAt current), _ =>
    pure (.conflict ("a conflict reaches the pair of " ++ current.localDid.text ++ " and " ++
      current.peerDid.text))
  | some (.unusable link), _ => m.unusableReplacement link
  | none, [root] =>
    if root = channel.peerDid then pure (.found root [])
    else
      match m.path ⟨channel.localDid, root⟩ channel with
      | .path _ support => pure (.found root support)
      | _ => pure (.conflict ("no usable path leads from " ++ root.text ++ " to " ++
          channel.peerDid.text))
  | none, roots =>
    pure (.conflict ("the history leads back to " ++ toString roots.length ++
      " addresses of the peer: " ++
      String.intercalate ", " ((Cmp.sortBy compareDids roots).map Did.text)))

end Model

/-! ## What one channel's links add -/

namespace BackWalk

/-- What looking behind a channel does to the walk. -/
structure Expanded (links : List PositiveLink) (walk walk' : BackWalk) : Prop where
  roots : walk'.roots = walk.roots
  reached : ∀ x ∈ walk.reached, x ∈ walk'.reached
  frontier : ∀ x ∈ walk.frontier, x ∈ walk'.frontier
  fresh : ∀ x ∈ walk'.reached, x ∈ walk.reached ∨
    (x ∈ walk'.frontier ∧ ∃ link ∈ links, link.usable = true ∧ link.from = x)
  met : ∀ x ∈ walk'.frontier, x ∈ walk.frontier ∨ x ∈ walk'.reached
  done : walk'.stop = none → ∀ link ∈ links, link.usable = true ∧ link.from ∈ walk'.reached
  stopped : ∀ link, walk'.stop = some (.unusable link) → walk.stop = some (.unusable link) ∨
    link ∈ links

/-- The sources of links a walk has not met yet. -/
def unmet (sources : Finset Channel) (walk : BackWalk) : Nat :=
  (sources \ walk.reached.toFinset).card

theorem unmet_append {sources : Finset Channel} {walk : BackWalk} {x : Channel}
    (hx : x ∈ sources) (hnew : x ∉ walk.reached) {walk' : BackWalk}
    (h : walk'.reached = walk.reached ++ [x]) :
    unmet sources walk' + 1 = unmet sources walk := by
  have heq : sources \ walk'.reached.toFinset = (sources \ walk.reached.toFinset).erase x := by
    ext y
    simp only [h, List.toFinset_append, Finset.mem_sdiff, Finset.mem_union, List.mem_toFinset,
      List.mem_singleton, Finset.mem_erase]
    tauto
  have hmem : x ∈ sources \ walk.reached.toFinset := by
    rw [Finset.mem_sdiff, List.mem_toFinset]
    exact ⟨hx, hnew⟩
  rw [unmet, unmet, heq, Finset.card_erase_of_mem hmem]
  have := Finset.card_pos.mpr ⟨x, hmem⟩
  omega

theorem expand_spec {sources : Finset Channel} :
    ∀ {links : List PositiveLink} {walk : BackWalk}, (∀ link ∈ links, link.from ∈ sources) →
      Expanded links walk (expand links walk) ∧
        unmet sources (expand links walk) + (expand links walk).frontier.length =
          unmet sources walk + walk.frontier.length
  | [], walk, _ => ⟨⟨rfl, fun _ h => h, fun _ h => h, fun _ h => Or.inl h, fun _ h => Or.inl h,
      fun _ _ h => (nomatch h), fun _ h => Or.inl h⟩, rfl⟩
  | link :: rest, walk, hs => by
      have hrest : ∀ link ∈ rest, link.from ∈ sources := fun x hx =>
        hs x (List.mem_cons_of_mem _ hx)
      rw [expand]
      split
      · refine ⟨⟨rfl, fun _ h => h, fun _ h => h, fun _ h => Or.inl h, fun _ h => Or.inl h,
          fun h => (nomatch h), fun x h => ?_⟩, rfl⟩
        cases h
        exact Or.inr List.mem_cons_self
      · next hu =>
        rw [Bool.not_eq_true', Bool.not_eq_false] at hu
        split
        · next hin =>
          obtain ⟨h, hmeasure⟩ := @expand_spec sources rest walk hrest
          refine ⟨⟨h.roots, h.reached, h.frontier, fun x hx => ?_, h.met, fun hstop => ?_,
            fun x hx => ?_⟩, hmeasure⟩
          · exact (h.fresh x hx).imp_right fun ⟨hf, l, hl, e⟩ =>
              ⟨hf, l, List.mem_cons_of_mem _ hl, e⟩
          · exact List.forall_mem_cons.mpr ⟨⟨hu, h.reached _ hin⟩, h.done hstop⟩
          · exact (h.stopped x hx).imp_right (List.mem_cons_of_mem _)
        · next hout =>
          obtain ⟨h, hmeasure⟩ := @expand_spec sources rest { walk with
            reached := walk.reached ++ [link.from], frontier := link.from :: walk.frontier } hrest
          have hfrom := h.reached link.from (List.mem_append_right _ (List.mem_singleton_self _))
          refine ⟨⟨h.roots, fun x hx => h.reached x (List.mem_append_left _ hx),
            fun x hx => h.frontier x (List.mem_cons_of_mem _ hx), fun x hx => ?_, fun x hx => ?_,
            fun hstop => ?_, fun x hx => ?_⟩, ?_⟩
          · rcases h.fresh x hx with hx | ⟨hf, l, hl, e⟩
            · rcases List.mem_append.mp hx with hx | hx
              · exact Or.inl hx
              · obtain rfl := List.mem_singleton.mp hx
                exact Or.inr ⟨h.frontier _ List.mem_cons_self, link, List.mem_cons_self, hu, rfl⟩
            · exact Or.inr ⟨hf, l, List.mem_cons_of_mem _ hl, e⟩
          · rcases h.met x hx with hx | hx
            · rcases List.mem_cons.mp hx with rfl | hx
              · exact Or.inr hfrom
              · exact Or.inl hx
            · exact Or.inr hx
          · exact List.forall_mem_cons.mpr ⟨⟨hu, hfrom⟩, h.done hstop⟩
          · exact (h.stopped x hx).imp_right (List.mem_cons_of_mem _)
          · have hunmet := @unmet_append sources walk link.from (hs link List.mem_cons_self) hout
              { walk with reached := walk.reached ++ [link.from], frontier := link.from :: walk.frontier } rfl
            rw [hmeasure, List.length_cons]
            omega

end BackWalk

namespace Model

section Walk

variable {entries : Entries} {c : Channel}

/-! ## The links the walk goes over -/

theorem reaches_local (hE : entries.Wf) {a b : Channel}
    (h : (ofEntries entries).positive.Reaches (some .peer) a b) : a.localDid = b.localDid := by
  induction h with
  | refl => rfl
  | tail _ hb ih => exact ih.trans (positive_replaces hE hb).1

theorem connected_of_reaches {m : Model} {a b : Channel} {kind : Option Side}
    (h : m.positive.Reaches kind a b) {d : Channel} (hb : Connected m d b) : Connected m d a := by
  induction h with
  | refl => exact hb
  | tail _ hbc ih =>
      obtain ⟨e, he, rfl, rfl, _⟩ := hbc
      exact ih (.to hb he)

theorem usable_peer_reaches (hE : entries.Wf) {a b : Channel} {side : Side}
    (h : (ofEntries entries).usable.Reaches (some side) a b) :
    (ofEntries entries).positive.Reaches (some side) a b :=
  Relation.ReflTransGen.mono (fun _ _ hxy => positive_of_usable hE hxy) _ _ h

/-- A positive link marked usable leads in the usable graph as it does in the positive one. -/
theorem leads_of_link_usable (hE : entries.Wf) {e : Edge FactIdentity}
    (he : e ∈ (ofEntries entries).positive.edges)
    (hu : ((ofEntries entries).link e).usable = true) :
    (ofEntries entries).usable.Leads (some e.replaces) e.from e.to := by
  obtain ⟨y, hy⟩ := Option.isSome_iff_exists.mp hu
  obtain ⟨hy, hfrom, hto⟩ := Graph.edge?_eq_some.mp hy
  have hpos := positive_of_usable hE ⟨y, hy, hfrom, hto, ofKind_some.mpr rfl⟩
  have hside := (positive_replaces hE hpos).side_unique
    (positive_replaces hE ⟨e, he, rfl, rfl, ofKind_some.mpr rfl⟩)
  exact ⟨y, hy, hfrom, hto, ofKind_some.mpr hside⟩

/-- What leads to a channel the walk meets is every positive link of the peer's to it. -/
theorem mem_leadingTo (hE : entries.Wf) {current : Channel} {link : PositiveLink}
    (h : (ofEntries entries).positive.Reaches (some .peer) current c) :
    link ∈ (ofEntries entries).leadingTo c current ↔
      ∃ e ∈ (ofEntries entries).positive.edges, e.replaces = .peer ∧ e.to = current ∧
        (ofEntries entries).link e = link := by
  rw [leadingTo, List.mem_filter, history, Cmp.mem_sortBy, List.mem_map]
  simp only [Bool.and_eq_true, decide_eq_true_eq]
  constructor
  · rintro ⟨⟨e, he, rfl⟩, ⟨hside, _⟩, hto⟩
    exact ⟨e, (List.mem_filter.mp he).1, hside, hto, rfl⟩
  · rintro ⟨e, he, hside, rfl, rfl⟩
    have hin : e.from ∈ (ofEntries entries).component c :=
      mem_component.mpr (.to (connected_of_reaches h .refl) he)
    exact ⟨⟨e, List.mem_filter.mpr ⟨he, decide_eq_true hin⟩, rfl⟩,
      ⟨hside, reaches_local hE h⟩, rfl⟩

/-! ## The walk -/

/-- The walk has looked behind the channel: it met all that leads to it, or the channel is a
root. -/
def Behind (m : Model) (walk : BackWalk) (x : Channel) : Prop :=
  (∀ y, m.positive.Leads (some .peer) y x → y ∈ walk.reached) ∧
    ((∃ y, m.positive.Leads (some .peer) y x) ∨ x.peerDid ∈ walk.roots)

/-- What holds of the walk back from `c` as it goes. -/
structure Walked (m : Model) (c : Channel) (walk : BackWalk) : Prop where
  start : c ∈ walk.reached
  met : ∀ x ∈ walk.frontier, x ∈ walk.reached
  usable : ∀ x ∈ walk.reached, m.usable.Reaches (some .peer) x c
  behind : walk.stop = none → ∀ x ∈ walk.reached, x ∈ walk.frontier ∨ m.Behind walk x
  roots : ∀ d ∈ walk.roots, ∃ x ∈ walk.reached, x.peerDid = d ∧
    ∀ y, ¬ m.positive.Leads (some .peer) y x
  unusable : ∀ link, walk.stop = some (.unusable link) →
    ∃ e ∈ m.positive.edges, m.link e = link

theorem leads_iff_leadingTo (hE : entries.Wf) {current y : Channel}
    (h : (ofEntries entries).positive.Reaches (some .peer) current c) :
    (ofEntries entries).positive.Leads (some .peer) y current ↔
      ∃ link ∈ (ofEntries entries).leadingTo c current, link.from = y := by
  constructor
  · rintro ⟨e, he, rfl, hto, hk⟩
    exact ⟨_, (mem_leadingTo hE h).mpr ⟨e, he, ofKind_some.mp hk, hto, rfl⟩, rfl⟩
  · rintro ⟨link, hl, rfl⟩
    obtain ⟨e, he, hk, hto, rfl⟩ := (mem_leadingTo hE h).mp hl
    exact ⟨e, he, rfl, hto, ofKind_some.mpr hk⟩

/-- Looking behind one channel of the frontier. -/
theorem Walked.look (hE : entries.Wf) {current : Channel} {walk walk' : BackWalk}
    {rest : List Channel} (h : Walked (ofEntries entries) c walk)
    (hfrontier : walk.frontier = current :: rest) (hgoes : walk.stop = none)
    (hexp : BackWalk.Expanded ((ofEntries entries).leadingTo c current)
      (walk.visit ((ofEntries entries).leadingTo c current) current rest) walk') :
    Walked (ofEntries entries) c walk' := by
  have hin : current ∈ walk.reached := h.met current (hfrontier ▸ List.mem_cons_self)
  have hcurrent := usable_peer_reaches hE (h.usable current hin)
  have hleads := fun y => @leads_iff_leadingTo entries c hE current y hcurrent
  have hroots := hexp.roots
  simp only [BackWalk.visit] at hroots
  refine ⟨hexp.reached c h.start, fun x hx => ?_, fun x hx => ?_, fun hstop x hx => ?_,
    fun d hd => ?_, fun link hstop => ?_⟩
  · rcases hexp.met x hx with hx | hx
    · exact hexp.reached x (h.met x (hfrontier ▸ List.mem_cons_of_mem _ hx))
    · exact hx
  · rcases hexp.fresh x hx with hx | ⟨_, link, hl, hu, rfl⟩
    · exact h.usable x hx
    · obtain ⟨e, he, hk, rfl, rfl⟩ := (mem_leadingTo hE hcurrent).mp hl
      exact .head (hk ▸ leads_of_link_usable hE he hu) (h.usable _ hin)
  · by_cases hout : x ∈ walk'.frontier
    · exact Or.inl hout
    have hx := (hexp.fresh x hx).resolve_right fun hf => hout hf.1
    refine Or.inr ?_
    by_cases hcur : x = current
    · subst hcur
      refine ⟨fun y hy => ?_, ?_⟩
      · obtain ⟨link, hl, rfl⟩ := (hleads y).mp hy
        exact (hexp.done hstop link hl).2
      · cases hl : (ofEntries entries).leadingTo c x with
        | nil =>
            right
            rw [hroots, hl]
            exact List.mem_append_right _ (List.mem_singleton_self _)
        | cons link _ =>
            exact Or.inl ⟨link.from, (hleads _).mpr ⟨link, hl ▸ List.mem_cons_self, rfl⟩⟩
    · -- a channel looked behind before
      have hold : x ∉ walk.frontier := by
        rw [hfrontier, List.mem_cons]
        exact fun hx => hx.elim hcur fun hx => hout (hexp.frontier x hx)
      obtain ⟨hall, hroot⟩ := (h.behind hgoes x hx).resolve_left hold
      refine ⟨fun y hy => hexp.reached y (hall y hy), hroot.imp_right fun hroot => ?_⟩
      rw [hroots]
      split
      · exact List.mem_append_left _ hroot
      · exact hroot
  · have hold : d ∈ walk.roots → ∃ x ∈ walk'.reached, x.peerDid = d ∧
        ∀ y, ¬ (ofEntries entries).positive.Leads (some .peer) y x := fun hd =>
      let ⟨x, hx, hxd, hno⟩ := h.roots d hd
      ⟨x, hexp.reached x hx, hxd, hno⟩
    rw [hroots] at hd
    split at hd
    · next hempty =>
      rcases List.mem_append.mp hd with hd | hd
      · exact hold hd
      · obtain rfl := List.mem_singleton.mp hd
        refine ⟨current, hexp.reached _ hin, rfl, fun y hy => ?_⟩
        obtain ⟨link, hl, _⟩ := (hleads y).mp hy
        rw [List.isEmpty_iff.mp hempty] at hl
        cases hl
    · exact hold hd
  · rcases hexp.stopped link hstop with hstop | hl
    · exact h.unusable link hstop
    · obtain ⟨e, he, _, _, rfl⟩ := (mem_leadingTo hE hcurrent).mp hl
      exact ⟨e, he, rfl⟩

/-- Where the links of the history start. -/
def sources (m : Model) (c : Channel) : Finset Channel :=
  ((m.history c).links.map PositiveLink.from).toFinset

/-- The channels still to be looked behind, met or not. -/
def ahead (m : Model) (c : Channel) (walk : BackWalk) : Nat :=
  BackWalk.unmet (m.sources c) walk + walk.frontier.length

/-- A step takes one channel off the frontier: at a conflict it stops, and otherwise it looks
behind it. -/
theorem walkBack_some {m : Model} {walk walk' : BackWalk} (hs : m.walkBack c walk = some walk') :
    ∃ current rest, walk.stop = none ∧ walk.frontier = current :: rest ∧
      m.ahead c walk' < m.ahead c walk ∧
      (walk' = { walk with frontier := rest, stop := some (.conflictAt current) } ∨
        BackWalk.Expanded (m.leadingTo c current)
          (walk.visit (m.leadingTo c current) current rest) walk') := by
  rw [walkBack] at hs
  split at hs
  · cases hs
  · cases hs
  · next current rest hstop hfrontier =>
    refine ⟨current, rest, hstop, hfrontier, ?_⟩
    split at hs
    · cases hs
      refine ⟨?_, Or.inl rfl⟩
      rw [ahead, ahead, hfrontier, List.length_cons]
      simp only [BackWalk.unmet]
      omega
    · cases hs
      have hsources : ∀ link ∈ m.leadingTo c current, link.from ∈ m.sources c := by
        intro link hl
        rw [leadingTo, List.mem_filter] at hl
        exact List.mem_toFinset.mpr (List.mem_map_of_mem hl.1)
      obtain ⟨hexp, hmeasure⟩ := @BackWalk.expand_spec (m.sources c) _
        (walk.visit (m.leadingTo c current) current rest) hsources
      refine ⟨?_, Or.inr hexp⟩
      rw [ahead, ahead, hmeasure, hfrontier, List.length_cons]
      simp only [BackWalk.unmet, BackWalk.visit]
      omega

theorem Walked.step (hE : entries.Wf) {walk walk' : BackWalk}
    (h : Walked (ofEntries entries) c walk)
    (hs : (ofEntries entries).walkBack c walk = some walk') :
    Walked (ofEntries entries) c walk' ∧
      (ofEntries entries).ahead c walk' < (ofEntries entries).ahead c walk := by
  obtain ⟨current, rest, hstop, hfrontier, hlt, rfl | hexp⟩ := walkBack_some hs
  · refine ⟨⟨h.start, fun x hx => h.met x (hfrontier ▸ List.mem_cons_of_mem _ hx), h.usable,
      fun hstop => (nomatch hstop), h.roots, fun _ hstop => (nomatch hstop)⟩, hlt⟩
  · exact ⟨h.look hE hfrontier hstop hexp, hlt⟩

/-- The walk ends, at a stop or with the frontier empty. -/
theorem walkedBack_spec (hE : entries.Wf) (c : Channel) :
    Walked (ofEntries entries) c ((ofEntries entries).walkedBack c) ∧
      (ofEntries entries).walkBack c ((ofEntries entries).walkedBack c) = none := by
  have hfuel : (ofEntries entries).ahead c ⟨[], [c], [c], none⟩ ≤
      ((ofEntries entries).history c).links.length + 1 := by
    have hcard := (Finset.card_le_card
      (Finset.sdiff_subset (s := (ofEntries entries).sources c) (t := [c].toFinset))).trans
      (List.toFinset_card_le _)
    rw [List.length_map] at hcard
    exact Nat.add_le_add_right hcard 1
  refine Loop.run_spec (Walked (ofEntries entries) c) ((ofEntries entries).ahead c)
    (fun _ _ h hs => h.step hE hs) ⟨List.mem_singleton_self c, fun _ hx => hx, ?_, ?_, ?_, ?_⟩
    hfuel
  · intro x hx
    rw [List.mem_singleton.mp hx]
  · exact fun _ x hx => Or.inl hx
  · exact fun _ hd => nomatch hd
  · exact fun _ hstop => nomatch hstop

/-- A walk no conflict and no unusable replacement cuts short has looked behind all it met. -/
theorem behind_of_walked (hE : entries.Wf) {x : Channel}
    (hstop : ((ofEntries entries).walkedBack c).stop = none)
    (hx : x ∈ ((ofEntries entries).walkedBack c).reached) :
    (ofEntries entries).Behind ((ofEntries entries).walkedBack c) x := by
  obtain ⟨hwalked, hend⟩ := walkedBack_spec hE c
  refine (hwalked.behind hstop x hx).resolve_left fun hin => ?_
  rw [walkBack, hstop] at hend
  split at hend
  · next h => cases h
  · next h => rw [h] at hin; cases hin
  · split at hend <;> cases hend

/-! ## What is found -/

/-- A root found is the one address the walk ended at. -/
theorem found_of_peerRoot {m : Model} {root : Did} {support : List ContinuityFact}
    (h : m.peerRoot c = .ok (.found root support)) :
    (m.walkedBack c).stop = none ∧ (m.walkedBack c).roots = [root] ∧
      (root ≠ c.peerDid → ∃ channels, m.path ⟨c.localDid, root⟩ c = .path channels support) := by
  rw [peerRoot] at h
  split at h
  · cases h
  · next link _ =>
    rw [unusableReplacement] at h
    cases hs : (link.support.filter _).mapM m.status with
    | error e => rw [hs] at h; cases h
    | ok statuses => rw [hs] at h; cases h
  · next root' hstop hroots =>
    split at h
    · next heq =>
      cases h
      exact ⟨hstop, hroots, fun hne => absurd heq hne⟩
    · split at h
      · next channels support' hpath =>
        cases h
        exact ⟨hstop, hroots, fun _ => ⟨channels, hpath⟩⟩
      · cases h
  · cases h

theorem status_of_valid {m : Model} {fact : ContinuityFact} (h : fact.Valid) :
    ∃ status, m.status fact = .ok status := by
  rw [status, validateFact_of_valid h, Checked.ok_bind]
  cases m.entries.find? fun e => e.identity = identityOf fact with
  | none => exact ⟨_, rfl⟩
  | some entry => exact ⟨_, rfl⟩

/-- The walk answers something: the claims it reads the status of are facts of the model. -/
theorem exists_peerRoot (hE : entries.Wf) (c : Channel) :
    ∃ root, (ofEntries entries).peerRoot c = .ok root := by
  rw [peerRoot]
  split
  · exact ⟨_, rfl⟩
  · next link hstop =>
    obtain ⟨e, _, rfl⟩ := (walkedBack_spec hE c).1.unusable link hstop
    have hstatuses : ∀ claims : List ContinuityFact, (∀ fact ∈ claims, fact.Valid) →
        ∃ statuses, claims.mapM (ofEntries entries).status = .ok statuses := by
      intro claims
      induction claims with
      | nil => exact fun _ => ⟨[], rfl⟩
      | cons fact claims ih =>
          intro hv
          rw [List.forall_mem_cons] at hv
          obtain ⟨status, hs⟩ := @status_of_valid (ofEntries entries) fact hv.1
          obtain ⟨statuses, hss⟩ := ih hv.2
          refine ⟨status :: statuses, ?_⟩
          rw [List.mapM_cons, hs, hss]
          rfl
    have hvalid : ∀ fact ∈ ((ofEntries entries).link e).support, fact.Valid := by
      intro fact hf
      obtain ⟨entry, hentry, rfl⟩ := List.mem_map.mp hf
      exact hE.valid (List.mem_filter.mp hentry).1
    rw [unusableReplacement]
    simp only
    obtain ⟨statuses, hs⟩ := hstatuses _ fun fact hf => hvalid fact (List.mem_filter.mp hf).1
    rw [hs]
    exact ⟨_, rfl⟩
  · split
    · exact ⟨_, rfl⟩
    · split
      · exact ⟨_, rfl⟩
      · exact ⟨_, rfl⟩
  · exact ⟨_, rfl⟩

/-- A channel the walk met that nothing leads to is the root found. -/
theorem eq_root_of_peerRoot (hE : entries.Wf) {root : Did} {support : List ContinuityFact}
    (h : (ofEntries entries).peerRoot c = .ok (.found root support)) {x : Channel}
    (hx : x ∈ ((ofEntries entries).walkedBack c).reached)
    (hno : ∀ y, ¬ (ofEntries entries).positive.Leads (some .peer) y x) : x.peerDid = root := by
  obtain ⟨hstop, hroots, _⟩ := found_of_peerRoot h
  rcases (behind_of_walked hE hstop hx).2 with ⟨y, hy⟩ | hin
  · exact absurd hy (hno y)
  · rw [hroots] at hin
    exact List.mem_singleton.mp hin

/-- The root found: nothing of the peer's leads to it, and usable links lead from it. -/
theorem root_spec (hE : entries.Wf) {root : Did} {support : List ContinuityFact}
    (h : (ofEntries entries).peerRoot c = .ok (.found root support)) :
    ⟨c.localDid, root⟩ ∈ ((ofEntries entries).walkedBack c).reached ∧
      (∀ y, ¬ (ofEntries entries).positive.Leads (some .peer) y ⟨c.localDid, root⟩) ∧
      (ofEntries entries).usable.Reaches (some .peer) ⟨c.localDid, root⟩ c := by
  obtain ⟨hstop, hroots, _⟩ := found_of_peerRoot h
  have hwalked := (walkedBack_spec hE c).1
  obtain ⟨x, hx, rfl, hno⟩ := hwalked.roots root (hroots ▸ List.mem_singleton_self root)
  have husable := hwalked.usable x hx
  have hlocal := reaches_local hE (usable_peer_reaches hE husable)
  have heq : x = ⟨c.localDid, x.peerDid⟩ := Channel.ext hlocal rfl
  rw [← heq]
  exact ⟨hx, hno, husable⟩

/-- All that leads to a channel over the peer's links was met by a walk that answered. -/
theorem mem_reached (hE : entries.Wf) {root : Did} {support : List ContinuityFact}
    (h : (ofEntries entries).peerRoot c = .ok (.found root support)) {x : Channel}
    (hx : (ofEntries entries).positive.Reaches (some .peer) x c) :
    x ∈ ((ofEntries entries).walkedBack c).reached := by
  obtain ⟨hstop, _⟩ := found_of_peerRoot h
  induction hx using Relation.ReflTransGen.head_induction_on with
  | refl => exact (walkedBack_spec hE c).1.start
  | head hab _ ih => exact (behind_of_walked hE hstop ih).1 _ hab

/-- Channels a path of usable peer links connects have one root. -/
theorem root_unique (hE : entries.Wf) {c' : Channel} {root root' : Did}
    {support support' : List ContinuityFact}
    (hr : (ofEntries entries).usable.Reaches (some .peer) c c')
    (h : (ofEntries entries).peerRoot c = .ok (.found root support))
    (h' : (ofEntries entries).peerRoot c' = .ok (.found root' support')) : root = root' := by
  obtain ⟨_, hno, husable⟩ := root_spec hE h
  have hreach := usable_peer_reaches hE (husable.trans hr)
  exact eq_root_of_peerRoot hE h' (mem_reached hE h' hreach) hno

end Walk

end Model

/-- The walk back ends on any history and answers; a root it finds is an address no
replacement of the peer's leads to and usable ones lead from; and it is the same for every
channel a usable path of the peer's replacements runs through, on whatever replica. -/
theorem peerRoot_agrees (facts : List ContinuityFact) (hv : ∀ f ∈ facts, f.Valid) :
    ∃ m, deriveContinuity facts = .ok m ∧
      (∀ facts', (∀ f, f ∈ facts' ↔ f ∈ facts) → deriveContinuity facts' = .ok m) ∧
      (∀ c, m.walkBack c (m.walkedBack c) = none ∧ ∃ root, m.peerRoot c = .ok root) ∧
      (∀ c root support, m.peerRoot c = .ok (.found root support) →
        (∀ e ∈ m.positive.edges, e.replaces = .peer → e.to ≠ ⟨c.localDid, root⟩) ∧
        m.usable.Reaches (some .peer) ⟨c.localDid, root⟩ c ∧
        (root ≠ c.peerDid → ∃ channels, m.path ⟨c.localDid, root⟩ c = .path channels support)) ∧
      ∀ c c' root root' support support', m.usable.Reaches (some .peer) c c' →
        m.peerRoot c = .ok (.found root support) →
        m.peerRoot c' = .ok (.found root' support') → root = root' := by
  obtain ⟨entries, hof, hm⟩ := deriveContinuity_spec hv
  have hE := hof.wf
  refine ⟨Model.ofEntries entries, hm, fun facts' hsame => ?_, fun c => ?_, ?_, ?_⟩
  · obtain ⟨m, h, h'⟩ := deriveContinuity_eq_of_mem_iff hv
      (fun f hf => hv f ((hsame f).mp hf)) fun f => (hsame f).symm
    rw [hm] at h
    rw [h', Except.ok.inj h]
  · exact ⟨(Model.walkedBack_spec hE c).2, Model.exists_peerRoot hE c⟩
  · intro c root support h
    obtain ⟨_, hno, husable⟩ := Model.root_spec hE h
    refine ⟨fun e he hk hto => ?_, husable, (Model.found_of_peerRoot h).2.2⟩
    exact hno e.from ⟨e, he, rfl, hto, ofKind_some.mpr hk⟩
  · intro c c' root root' support support' hr h h'
    exact Model.root_unique hE hr h h'

/-- The peer of the diamond is led back to its first address from the pair it moved to. -/
theorem peerRoot_agrees_bothRotated :
    ∃ m support, deriveContinuity bothRotated = .ok m ∧
      m.peerRoot ⟨aliceNew, bobNew⟩ = .ok (.found bobOld support) ∧
      m.usable.Reaches (some .peer) ⟨aliceNew, bobOld⟩ ⟨aliceNew, bobNew⟩ := by
  obtain ⟨m, hm, _, _, hfound, _⟩ := peerRoot_agrees bothRotated bothRotated_valid
  have h : (deriveContinuity bothRotated).bind (fun m => m.peerRoot ⟨aliceNew, bobNew⟩) =
      .ok (.found bobOld [.localDecision ⟨aliceOld, bobOld⟩ (.rotate aliceNew),
        .peerObservation ⟨aliceOld, bobOld⟩ none,
        .peerObservation ⟨aliceOld, bobNew⟩ (some bobOld)]) := by decide +kernel
  rw [hm] at h
  exact ⟨m, _, hm, h, (hfound _ _ _ h).2.1⟩

end Estoc.Continuity
