import Estoc.Continuity.Cycles
import Estoc.Continuity.Derived

/-!
# Which channels a conflict reaches

The conflicts of a model are lists collected from groups, components and a map
of collisions. `affected_iff` says which channels their scopes cover in terms of
the positive graph and the claims alone: the contexts in which an endpoint's
changes are disputed and the successors claimed there, the pairs on a cycle, and
the pairs of a join that would pair a DID with itself. Every later statement
about conflicts is about these.
-/

namespace Estoc.Continuity

set_option linter.unusedSectionVars false

def Side.other : Side → Side
  | .local => .peer
  | .peer => .local

/-- The context a change of `side` applies across: what edges of the other side,
which keep the endpoint it changes, connect. -/
abbrev Same (g : Graph FactIdentity) (side : Side) : Channel → Channel → Prop :=
  Relation.EqvGen (g.Leads (some side.other))

theorem eqvGen_congr {α : Type} {r s : α → α → Prop} (h : ∀ a b, r a b ↔ s a b) :
    Relation.EqvGen r = Relation.EqvGen s := by
  have : r = s := by funext a b; exact propext (h a b)
  rw [this]

theorem contexts_root {g : Graph FactIdentity} {side : Side} {a b : Channel} :
    (Contexts.new g side).root a = (Contexts.new g side).root b ↔
      Relation.EqvGen (g.Leads (some side)) a b := by
  rw [Contexts.root, Contexts.root, Contexts.new, UnionFind.root_eq_root]
  refine iff_of_eq (congrFun (congrFun (eqvGen_congr fun x y => ?_) a) b)
  rw [UnionFind.Paired, List.mem_map]
  constructor
  · rintro ⟨e, he, hxy⟩
    obtain ⟨he, hs⟩ := List.mem_filter.mp he
    obtain ⟨rfl, rfl⟩ := Prod.mk.inj hxy
    exact ⟨e, he, rfl, rfl, ofKind_some.mpr (of_decide_eq_true hs)⟩
  · rintro ⟨e, he, rfl, rfl, hk⟩
    exact ⟨e, List.mem_filter.mpr ⟨he, decide_eq_true (ofKind_some.mp hk)⟩, rfl⟩

/-! ## Claims and their groups -/

/-- An entry with its claim, of one side. -/
def Claims (entries : Entries) (side : Side) (e : Entry) (claim : Claim) : Prop :=
  e ∈ entries ∧ e.claim = some claim ∧ claim.side = side

section Groups

variable {entries : Entries} {contexts : Contexts} {side : Side}

/-- What a group holds of the claims in the context of one root. -/
structure GroupOf (entries : Entries) (contexts : Contexts) (side : Side) (r : Channel)
    (group : Group) : Prop where
  channel : ∃ e claim, Claims entries side e claim ∧ contexts.root claim.at = r ∧
    claim.at = group.channel
  change : ∀ ch, ch ∈ group.changes.keys ↔ ∃ e claim, Claims entries side e claim ∧
    contexts.root claim.at = r ∧ claim.change = ch
  nonempty : ∀ {ch ids}, group.changes.get? ch = some ids → ids.Nonempty
  successor : ∀ b, b ∈ group.successors ↔ ∃ e claim, Claims entries side e claim ∧
    contexts.root claim.at = r ∧ claim.to = some b

theorem claims_append {e : Entry} {x : Entry} {claim : Claim} :
    Claims (entries ++ [e]) side x claim ↔
      Claims entries side x claim ∨ x = e ∧ e.claim = some claim ∧ claim.side = side := by
  simp only [Claims, List.mem_append, List.mem_singleton]
  constructor
  · rintro ⟨h | rfl, hc⟩
    · exact Or.inl ⟨h, hc⟩
    · exact Or.inr ⟨rfl, hc⟩
  · rintro (⟨h, hc⟩ | ⟨rfl, hc⟩)
    · exact ⟨Or.inl h, hc⟩
    · exact ⟨Or.inr rfl, hc⟩

/-- The claims of a list one entry longer that meet a condition. -/
theorem exists_claims_append {e : Entry} {P : Claim → Prop} :
    (∃ x claim, Claims (entries ++ [e]) side x claim ∧ P claim) ↔
      (∃ x claim, Claims entries side x claim ∧ P claim) ∨
        ∃ claim, e.claim = some claim ∧ claim.side = side ∧ P claim := by
  constructor
  · rintro ⟨x, claim, hc, hp⟩
    rcases claims_append.mp hc with hc | ⟨_, hc, hs⟩
    · exact Or.inl ⟨x, claim, hc, hp⟩
    · exact Or.inr ⟨claim, hc, hs, hp⟩
  · rintro (⟨x, claim, hc, hp⟩ | ⟨claim, hc, hs, hp⟩)
    · exact ⟨x, claim, claims_append.mpr (Or.inl hc), hp⟩
    · exact ⟨e, claim, claims_append.mpr (Or.inr ⟨rfl, hc, hs⟩), hp⟩

/-- Every group is the group of its root, and a root with a claim has one. -/
structure Grouped (entries : Entries) (contexts : Contexts) (side : Side)
    (groups : OMap Channel Group) : Prop where
  group : ∀ {r group}, groups.get? r = some group →
    GroupOf entries contexts side r group
  all : ∀ {e claim}, Claims entries side e claim →
    ∃ group, groups.get? (contexts.root claim.at) = some group

theorem GroupOf.skip {r : Channel} {group : Group} (h : GroupOf entries contexts side r group)
    {e : Entry} (he : ∀ claim, e.claim = some claim → claim.side = side →
      contexts.root claim.at ≠ r) : GroupOf (entries ++ [e]) contexts side r group := by
  have hnone : ∀ {P : Claim → Prop}, ¬ ∃ claim, e.claim = some claim ∧ claim.side = side ∧
      contexts.root claim.at = r ∧ P claim := by
    rintro P ⟨claim, hc, hs, hr, _⟩
    exact he claim hc hs hr
  refine ⟨?_, fun ch => ?_, h.nonempty, fun b => ?_⟩
  · exact exists_claims_append.mpr (Or.inl h.channel)
  · rw [h.change, exists_claims_append, or_iff_left hnone]
  · rw [h.successor, exists_claims_append, or_iff_left hnone]

theorem grouped_groups : Grouped entries contexts side (groups entries contexts side) := by
  induction entries using List.reverseRecOn with
  | nil => exact ⟨(fun h => nomatch h), fun h => absurd h.1 List.not_mem_nil⟩
  | append_singleton l e ih =>
      rw [groups, List.foldl_append]
      change Grouped (l ++ [e]) contexts side (List.foldl _ (groups l contexts side) [e])
      rw [List.foldl_cons, List.foldl_nil]
      -- an entry that claims nothing of the side leaves every group as it was
      have hskip : (∀ claim, e.claim = some claim → claim.side ≠ side) →
          Grouped (l ++ [e]) contexts side (groups l contexts side) := by
        intro hne
        refine ⟨fun h => (ih.group h).skip fun claim hc hs => absurd hs (hne claim hc), ?_⟩
        intro x claim hx
        rcases claims_append.mp hx with hx | ⟨_, hc, hs⟩
        · exact ih.all hx
        · exact absurd hs (hne claim hc)
      cases hclaim : e.claim with
      | none => exact hskip fun claim hc => by rw [hclaim] at hc; cases hc
      | some claim =>
          simp only
          split
          · next hside =>
            exact hskip fun claim' hc => by rw [hclaim] at hc; cases hc; exact hside
          · next hside =>
            have hside : claim.side = side := not_not.mp hside
            have hmine : ∀ {P : Claim → Prop}, (∃ c, e.claim = some c ∧ c.side = side ∧
                contexts.root c.at = contexts.root claim.at ∧ P c) ↔ P claim := by
              intro P
              rw [hclaim]
              constructor
              · rintro ⟨c, hc, _, _, hp⟩
                cases hc
                exact hp
              · intro hp
                exact ⟨claim, rfl, hside, rfl, hp⟩
            refine ⟨?_, ?_⟩
            · intro r group hg
              rw [OMap.get?_set] at hg
              split at hg
              · next hr =>
                subst hr
                cases hg
                refine ⟨?_, fun ch => ?_, ?_, fun b => ?_⟩
                · rw [exists_claims_append, hmine]
                  cases hold : (groups l contexts side).get? (contexts.root claim.at) with
                  | none => exact Or.inr rfl
                  | some old => exact Or.inl (ih.group hold).channel
                · rw [exists_claims_append, hmine]
                  rw [Group.claim, OMap.mem_keys_set, @eq_comm _ ch claim.change]
                  cases hold : (groups l contexts side).get? (contexts.root claim.at) with
                  | none =>
                      refine or_congr_left (iff_of_false (by simp [OMap.keys, OMap.empty]) ?_)
                      rintro ⟨x, c, hc, hr, _⟩
                      obtain ⟨g, hg⟩ := ih.all hc
                      rw [hr, hold] at hg
                      cases hg
                  | some old => exact or_congr_left ((ih.group hold).change ch)
                · intro ch ids hids
                  rw [Group.claim, OMap.get?_set] at hids
                  split at hids
                  · cases hids
                    exact Finset.insert_nonempty _ _
                  · cases hold : (groups l contexts side).get? (contexts.root claim.at) with
                    | none => rw [hold] at hids; cases hids
                    | some old => rw [hold] at hids; exact (ih.group hold).nonempty hids
                · rw [exists_claims_append, hmine]
                  rw [Group.claim, List.mem_append, Option.mem_toList]
                  cases hold : (groups l contexts side).get? (contexts.root claim.at) with
                  | none =>
                      refine or_congr_left (iff_of_false List.not_mem_nil ?_)
                      rintro ⟨x, c, hc, hr, _⟩
                      obtain ⟨g, hg⟩ := ih.all hc
                      rw [hr, hold] at hg
                      cases hg
                  | some old => exact or_congr_left ((ih.group hold).successor b)
              · next hr =>
                refine (ih.group hg).skip fun c hc _ => ?_
                rw [hclaim] at hc
                cases hc
                exact Ne.symm hr
            · intro x c hx
              rcases claims_append.mp hx with hx | ⟨_, hc, _⟩
              · by_cases hr : contexts.root c.at = contexts.root claim.at
                · exact ⟨_, by rw [hr]; exact OMap.get?_set_self _ _ _⟩
                · rw [OMap.get?_set_ne _ _ hr]
                  exact ih.all hx
              · rw [hclaim] at hc
                cases hc
                exact ⟨_, OMap.get?_set_self _ _ _⟩

end Groups

/-! ## Scopes -/

/-- Two claims of one endpoint in one context that differ, and a claim of the
context. -/
def Disputed (entries : Entries) (g : Graph FactIdentity) (side : Side) (a : Channel) : Prop :=
  ∃ e₁ c₁ e₂ c₂, Claims entries side e₁ c₁ ∧ Claims entries side e₂ c₂ ∧
    Same g side c₁.at a ∧ Same g side c₂.at a ∧ c₁.change ≠ c₂.change

/-- A pair of a disputed context, or a successor claimed in one. -/
def Competes (entries : Entries) (g : Graph FactIdentity) (side : Side) (c : Channel) : Prop :=
  ∃ a, Disputed entries g side a ∧ ((c ∈ g.vertices ∧ Same g side c a) ∨
    ∃ e claim, Claims entries side e claim ∧ Same g side claim.at a ∧ claim.to = some c)

/-- A pair links lead away from and back to. -/
def Cyclic (g : Graph FactIdentity) (c : Channel) : Prop :=
  ∃ d, d ≠ c ∧ g.Reaches none c d ∧ g.Reaches none d c

/-- A graph the conflicts of a model are found in. -/
structure Positive (entries : Entries) (g : Graph FactIdentity) : Prop where
  ends : ∀ {x}, x ∈ g.edges → x.from ∈ g.vertices ∧ x.to ∈ g.vertices
  sites : ∀ {e claim}, e ∈ entries → e.claim = some claim → claim.at ∈ g.vertices
  support : ∀ {x}, x ∈ g.edges → x.support.Nonempty
  collides : ∀ {channels}, Collides g channels →
    ∃ c ∈ g.identityCollisions.values, c.channels = channels
  collision : ∀ {c}, c ∈ g.identityCollisions.values → Collides g c.channels
  collision_support : ∀ {c}, c ∈ g.identityCollisions.values → c.support.Nonempty

section Scopes

variable {entries : Entries} {g : Graph FactIdentity}

/-- `found` covers exactly the channels of which `P` holds, each conflict with
facts. -/
def Covers (found : List Found) (P : Channel → Prop) : Prop :=
  (∀ c, (∃ f ∈ found, c ∈ f.conflict.scope) ↔ P c) ∧ ∀ f ∈ found, f.identities.Nonempty

theorem Covers.append {l l' : List Found} {P Q : Channel → Prop} (h : Covers l P)
    (h' : Covers l' Q) : Covers (l ++ l') fun c => P c ∨ Q c := by
  refine ⟨fun c => ?_, fun f hf => (List.mem_append.mp hf).elim (h.2 f) (h'.2 f)⟩
  simp only [List.mem_append, or_and_right, exists_or]
  exact or_congr (h.1 c) (h'.1 c)

theorem mem_contextOf {contexts : Contexts} {a c : Channel} :
    c ∈ contextOf g contexts a ↔
      c = a ∨ c ∈ g.vertices ∧ contexts.root c = contexts.root a := by
  rw [contextOf, mem_sortedChannels, List.mem_cons, List.mem_filter, decide_eq_true_eq]

section Competing

variable {contexts : Contexts} {side : Side}

theorem mem_competing {f : Found} (h : f ∈ competing entries g contexts side) :
    ∃ r group, (groups entries contexts side).get? r = some group ∧ 2 ≤ group.changes.size ∧
      (∀ c, c ∈ f.conflict.scope ↔
        c ∈ contextOf g contexts group.channel ∨ c ∈ group.successors) ∧
      f.identities.Nonempty := by
  obtain ⟨group, hg, hf⟩ := List.mem_filterMap.mp h
  obtain ⟨r, hr⟩ := OMap.mem_values.mp hg
  split at hf
  · cases hf
  · next hsize =>
    cases hf
    refine ⟨r, group, hr, not_lt.mp hsize, fun c => ?_, ?_⟩
    · rw [Conflict.scope, mem_sortedChannels, List.mem_append]
    · obtain ⟨ch, _, hch, _, _⟩ := OMap.two_le_size.mp (not_lt.mp hsize)
      obtain ⟨ids, hids⟩ := OMap.mem_keys.mp hch
      obtain ⟨i, hi⟩ := (grouped_groups.group hr).nonempty hids
      exact ⟨i, mem_foldr_union.mpr (Or.inl
        ⟨(ch, ids), Cmp.mem_sortBy.mpr (OMap.mem_entries.mpr hids), hi⟩)⟩

theorem exists_competing {r : Channel} {group : Group}
    (hr : (groups entries contexts side).get? r = some group)
    (hsize : 2 ≤ group.changes.size) :
    ∃ f ∈ competing entries g contexts side, ∀ c, c ∈ f.conflict.scope ↔
      c ∈ contextOf g contexts group.channel ∨ c ∈ group.successors := by
  refine ⟨_, List.mem_filterMap.mpr ⟨group, OMap.mem_values.mpr ⟨r, hr⟩,
    if_neg (not_lt.mpr hsize)⟩, fun c => ?_⟩
  rw [Conflict.scope, mem_sortedChannels, List.mem_append]

end Competing

theorem covers_competing (hp : Positive entries g) (side : Side) :
    Covers (competing entries g (Contexts.new g side.other) side)
      (Competes entries g side) := by
  have hgroups := @grouped_groups entries (Contexts.new g side.other) side
  refine ⟨fun c => ⟨?_, ?_⟩, fun f hf => ?_⟩
  · rintro ⟨f, hf, hc⟩
    obtain ⟨r, group, hr, hsize, hscope, _⟩ := mem_competing hf
    have hgroup := hgroups.group hr
    obtain ⟨e, claim, hclaim, hat, hch⟩ := hgroup.channel
    obtain ⟨ch₁, ch₂, h₁, h₂, hne⟩ := OMap.two_le_size.mp hsize
    obtain ⟨e₁, c₁, hc₁, hr₁, rfl⟩ := (hgroup.change ch₁).mp h₁
    obtain ⟨e₂, c₂, hc₂, hr₂, rfl⟩ := (hgroup.change ch₂).mp h₂
    refine ⟨group.channel, ⟨e₁, c₁, e₂, c₂, hc₁, hc₂, contexts_root.mp ?_,
      contexts_root.mp ?_, hne⟩, ?_⟩
    · rw [hr₁, ← hch, hat]
    · rw [hr₂, ← hch, hat]
    · rcases (hscope c).mp hc with hctx | hsucc
      · rcases mem_contextOf.mp hctx with rfl | ⟨hv, hroot⟩
        · exact Or.inl ⟨hch ▸ hp.sites hclaim.1 hclaim.2.1, .refl _⟩
        · exact Or.inl ⟨hv, contexts_root.mp hroot⟩
      · obtain ⟨x, cl, hcl, hx, hto⟩ := (hgroup.successor c).mp hsucc
        refine Or.inr ⟨x, cl, hcl, contexts_root.mp ?_, hto⟩
        rw [hx, ← hch, hat]
  · rintro ⟨a, ⟨e₁, c₁, e₂, c₂, hc₁, hc₂, hs₁, hs₂, hne⟩, hcase⟩
    obtain ⟨group, hr⟩ := hgroups.all hc₁
    have hgroup := hgroups.group hr
    have hroot : ∀ {x}, Same g side x a → (Contexts.new g side.other).root x =
        (Contexts.new g side.other).root c₁.at :=
      fun h => contexts_root.mpr (h.trans _ _ _ (hs₁.symm _ _))
    have hsize : 2 ≤ group.changes.size := OMap.two_le_size.mpr ⟨c₁.change, c₂.change,
      (hgroup.change _).mpr ⟨e₁, c₁, hc₁, rfl, rfl⟩,
      (hgroup.change _).mpr ⟨e₂, c₂, hc₂, hroot hs₂, rfl⟩, hne⟩
    obtain ⟨f, hf, hscope⟩ := exists_competing (g := g) hr hsize
    refine ⟨f, hf, (hscope c).mpr ?_⟩
    rcases hcase with ⟨hv, hsame⟩ | ⟨x, cl, hcl, hsame, hto⟩
    · obtain ⟨_, _, _, hat, hch⟩ := hgroup.channel
      refine Or.inl (mem_contextOf.mpr (Or.inr ⟨hv, ?_⟩))
      rw [← hch, hat]
      exact hroot hsame
    · exact Or.inr ((hgroup.successor c).mpr ⟨x, cl, hcl, hroot hsame, hto⟩)
  · obtain ⟨_, _, _, _, _, hne⟩ := mem_competing hf
    exact hne

theorem Positive.ended (hp : Positive entries g) : g.Ended := by
  intro k hk
  obtain ⟨l, hl⟩ := OMap.mem_keys.mp hk
  have he : ({ l with «from» := k.1, «to» := k.2 } : Edge FactIdentity) ∈ g.edges :=
    Graph.mem_edges.mpr hl
  exact hp.ends he

/-- A first edge on the way somewhere else. -/
theorem exists_first {a b : Channel} (h : g.Reaches none a b) (hne : b ≠ a) :
    ∃ e ∈ g.edges, e.from = a ∧ g.Reaches none e.to b := by
  rcases Relation.ReflTransGen.cases_head h with rfl | ⟨x, ⟨e, he, hf, rfl, _⟩, hx⟩
  · exact absurd rfl hne
  · exact ⟨e, he, hf, hx⟩

theorem covers_cycles (hp : Positive entries g) :
    Covers (cyclesFound entries g) (Cyclic g) := by
  have hpart := Graph.components_partition hp.ended
  have hmem : ∀ {c a b}, c ∈ Tarjan.components g.vertices g.successors → a ∈ c →
      (b ∈ c ↔ g.Reaches none a b ∧ g.Reaches none b a) := by
    intro c a b hc ha
    rw [hpart.component hc ha, Graph.path_iff, Graph.path_iff]
  refine ⟨fun c => ⟨?_, ?_⟩, fun f hf => ?_⟩
  · rintro ⟨f, hf, hc⟩
    obtain ⟨l, hl, rfl⟩ := List.mem_map.mp hf
    obtain ⟨comp, hcomp, hlen, rfl⟩ := Graph.mem_cycles.mp hl
    have hc : c ∈ comp := Cmp.mem_sortBy.mp hc
    obtain ⟨d, hd, hne⟩ := Graph.exists_other (hpart.nodup hcomp).1 hlen
    exact ⟨d, hne, (hmem hcomp hc).mp hd⟩
  · rintro ⟨d, hne, hcd, hdc⟩
    obtain ⟨e, he, hf, _⟩ := exists_first hcd hne
    obtain ⟨comp, hcomp, hc⟩ := hpart.mem.mp (hf ▸ (hp.ends he).1)
    have hd := (hmem hcomp hc).mpr ⟨hcd, hdc⟩
    have hlen := Graph.one_lt_length hd hc hne
    exact ⟨_, List.mem_map.mpr ⟨_, Graph.mem_cycles.mpr ⟨comp, hcomp, hlen, rfl⟩, rfl⟩,
      Cmp.mem_sortBy.mpr hc⟩
  · obtain ⟨l, hl, rfl⟩ := List.mem_map.mp hf
    obtain ⟨comp, hcomp, hlen, rfl⟩ := Graph.mem_cycles.mp hl
    obtain ⟨a, ha⟩ := List.exists_mem_of_ne_nil _ (hpart.nodup hcomp).2
    obtain ⟨b, hb, hne⟩ := Graph.exists_other (hpart.nodup hcomp).1 hlen
    obtain ⟨hab, hba⟩ := (hmem hcomp ha).mp hb
    -- the first link towards another member stays in the component
    obtain ⟨e, he, rfl, hto⟩ := exists_first hab hne
    have hein : e.to ∈ comp := (hmem hcomp ha).mpr
      ⟨.single ⟨e, he, rfl, rfl, ofKind_none e⟩, hto.trans hba⟩
    obtain ⟨i, hi⟩ := hp.support he
    refine ⟨i, mem_supportOf.mpr ⟨e, List.mem_flatMap.mpr ⟨e.from, Cmp.mem_sortBy.mpr ha, ?_⟩, hi⟩⟩
    exact List.mem_filter.mpr ⟨Graph.mem_from.mpr ⟨he, rfl⟩,
      decide_eq_true (Cmp.mem_sortBy.mpr hein)⟩

/-- A pair of a join refused. -/
def Collided (g : Graph FactIdentity) (c : Channel) : Prop :=
  ∃ channels, Collides g channels ∧ c ∈ channels

theorem covers_collisions (hp : Positive entries g) :
    Covers (collisionsFound entries g) (Collided g) := by
  refine ⟨fun c => ⟨?_, ?_⟩, fun f hf => ?_⟩
  · rintro ⟨f, hf, hc⟩
    obtain ⟨col, hcol, rfl⟩ := List.mem_map.mp hf
    exact ⟨col.channels, hp.collision hcol, mem_sortedChannels.mp hc⟩
  · rintro ⟨channels, hcollides, hc⟩
    obtain ⟨col, hcol, rfl⟩ := hp.collides hcollides
    exact ⟨_, List.mem_map.mpr ⟨col, hcol, rfl⟩, mem_sortedChannels.mpr hc⟩
  · obtain ⟨col, hcol, rfl⟩ := List.mem_map.mp hf
    exact hp.collision_support hcol

/-- The channels some conflict reaches. -/
def Affected (entries : Entries) (g : Graph FactIdentity) (c : Channel) : Prop :=
  Competes entries g .peer c ∨ Competes entries g .local c ∨ Cyclic g c ∨ Collided g c

theorem covers_findConflicts (hp : Positive entries g) :
    Covers (findConflicts entries g (Contexts.new g .local) (Contexts.new g .peer))
      (Affected entries g) := by
  have h := (((covers_competing hp .peer).append (covers_competing hp .local)).append
    (covers_cycles hp)).append (covers_collisions hp)
  refine ⟨fun c => ?_, fun f hf => h.2 f (Cmp.mem_sortBy.mp hf)⟩
  rw [findConflicts]
  simp only [Cmp.mem_sortBy]
  refine (h.1 c).trans (iff_of_eq ?_)
  simp only [Affected, or_assoc]

theorem affectedIn_iff {found : List Found} {P : Channel → Prop} (h : Covers found P)
    {c : Channel} : affectedIn found c = true ↔ P c := by
  rw [affectedIn, List.any_eq_true, ← h.1]
  simp only [decide_eq_true_eq]

/-- The facts of the conflicts at a channel, none exactly where no conflict
reaches it. -/
theorem conflictFactsIn_eq_empty {found : List Found} {P : Channel → Prop}
    (h : Covers found P) {c : Channel} : conflictFactsIn found c = ∅ ↔ ¬ P c := by
  have hmem : ∀ (l : List Found) (i : FactIdentity), i ∈ conflictFactsIn l c ↔
      ∃ f ∈ l, c ∈ f.conflict.scope ∧ i ∈ f.identities := by
    intro l i
    induction l with
    | nil => simp [conflictFactsIn]
    | cons f l ih =>
        rw [conflictFactsIn, List.foldr_cons, ← conflictFactsIn]
        simp only [List.mem_cons, exists_eq_or_imp]
        split
        · next hc => rw [Finset.mem_union, ih]; simp [hc]
        · next hc => rw [ih]; simp [hc]
  rw [← h.1, Finset.eq_empty_iff_forall_notMem]
  constructor
  · rintro hnone ⟨f, hf, hc⟩
    obtain ⟨i, hi⟩ := h.2 f hf
    exact hnone i ((hmem found i).mpr ⟨f, hf, hc, hi⟩)
  · intro hnone i hi
    obtain ⟨f, hf, hc, _⟩ := (hmem found i).mp hi
    exact hnone ⟨f, hf, hc⟩

end Scopes

end Estoc.Continuity
