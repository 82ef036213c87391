import Mathlib.Data.Finset.Card
import Mathlib.Data.Finset.Lattice.Basic
import Mathlib.Data.Finset.Prod
import Mathlib.Logic.Relation
import Estoc.Continuity.Facts
import Estoc.Lib.Loop
import Estoc.Lib.Tarjan
import Estoc.Lib.UnionFind

/-!
# The continuity graph

Channels as vertices, edges that replace exactly one endpoint, and the joins
two opposite-side edges leaving one pair imply. Nothing here knows what a fact
is beyond its identity, so the identities are a type variable.

The source keeps each edge as one object that `out`, `into` and the queue all
point to. Here an edge is an entry of one map keyed by its two ends: `from` and
`to` are the two ways to walk it, and the queue holds the keys, so that what is
popped is read as it stands by then.
-/

namespace Estoc.Continuity

variable {ι : Type} [DecidableEq ι]

/-- What an edge says beside its ends. -/
structure Label (ι : Type) where
  replaces : Side
  support : Finset ι
  /-- derived by a join rather than declared by a fact at `from` -/
  derived : Bool

structure Edge (ι : Type) extends Label ι where
  «from» : Channel
  «to» : Channel

/-- A link a fact declares, before it is an edge. -/
structure Link (ι : Type) where
  identity : ι
  «from» : Channel
  «to» : Channel
deriving DecidableEq

structure IdentityCollision (ι : Type) where
  channels : List Channel
  support : Finset ι

structure Graph (ι : Type) where
  admits : Channel → Bool
  vertices : List Channel
  identityCollisions : OMap (List Channel) (IdentityCollision ι)
  out : OMap (Channel × Channel) (Label ι)
  queue : List (Channel × Channel)

namespace Graph

/-- A graph with nothing in it that will take the channels `admits` takes. -/
def new (admits : Channel → Bool) : Graph ι := ⟨admits, [], OMap.empty, OMap.empty, []⟩

def edge? (g : Graph ι) (a b : Channel) : Option (Edge ι) :=
  (g.out.get? (a, b)).map fun label => { label with «from» := a, «to» := b }

def edges (g : Graph ι) : List (Edge ι) :=
  g.out.entries.map fun e => { e.2 with «from» := e.1.1, «to» := e.1.2 }

/-- The edges that leave `c`. -/
def «from» (g : Graph ι) (c : Channel) : List (Edge ι) :=
  g.edges.filter fun e => e.from = c

/-- The edges that lead to `c`. -/
def «to» (g : Graph ι) (c : Channel) : List (Edge ι) :=
  g.edges.filter fun e => e.to = c

def hasOutgoing (g : Graph ι) (c : Channel) : Bool := !(g.from c).isEmpty

def vertex (g : Graph ι) (c : Channel) : Graph ι :=
  if c ∈ g.vertices then g else { g with vertices := g.vertices ++ [c] }

/-- The edge with `support` added to what it has; queued when it is new or its
support grew. -/
def add (g : Graph ι) (a b : Channel) (replaces : Side) (support : Finset ι)
    (derived : Bool) : Graph ι :=
  if !g.admits a || !g.admits b then g
  else
    let g := (g.vertex a).vertex b
    match g.out.get? (a, b) with
    | none =>
      { g with
        out := g.out.set (a, b) ⟨replaces, support, derived⟩
        queue := (a, b) :: g.queue }
    | some existing =>
      let grown := existing.support ∪ support
      { g with
        out := g.out.set (a, b)
          ⟨existing.replaces, grown, existing.derived && derived⟩
        queue := if existing.support.card < grown.card
          then (a, b) :: g.queue else g.queue }

/-- What a local and a peer edge leaving one pair imply: the pair of both
successors from each of the two, or a collision when that would pair a DID with
itself. -/
def join (g : Graph ι) (ours peer : Edge ι) : Graph ι :=
  let localDid := ours.to.localDid
  let peerDid := peer.to.peerDid
  let support := ours.support ∪ peer.support
  if localDid = peerDid then
    let channels := [ours.from, ours.to, peer.to]
    { g with identityCollisions := g.identityCollisions.set channels ⟨channels, support⟩ }
  else
    let joined : Channel := ⟨localDid, peerDid⟩
    (g.add ours.to joined .peer support true).add peer.to joined .local support true

/-- One edge met with one partner, both as they stand now. -/
def pair (g : Graph ι) (key partner : Channel × Channel) : Graph ι :=
  match g.edge? key.1 key.2, g.edge? partner.1 partner.2 with
  | some edge, some partner =>
    if partner.replaces = edge.replaces then g
    else if edge.replaces = .local then g.join edge partner
    else g.join partner edge
  | _, _ => g

def closeStep (g : Graph ι) : Option (Graph ι) :=
  match g.queue with
  | [] => none
  | key :: rest =>
    let g := { g with queue := rest }
    some (((g.from key.1).map fun e => (e.from, e.to)).foldl
      (fun g partner => g.pair key partner) g)

/-- The channels the joins of a graph may lead to: a local DID and a peer DID
of pairs it already has. -/
def span (g : Graph ι) : Finset Channel :=
  ((g.vertices.map Channel.localDid).toFinset ×ˢ
    (g.vertices.map Channel.peerDid).toFinset).image fun p => ⟨p.1, p.2⟩

/-- Every identity some edge rests on. -/
def identities (g : Graph ι) : Finset ι :=
  g.edges.foldr (fun e s => e.support ∪ s) ∅

/-- Every edge between two channels of the span can be queued once for
being new and once for each identity its support may still gain. -/
def fuel (g : Graph ι) : Nat :=
  g.queue.length + (g.span ×ˢ g.span).card * (g.identities.card + 1)

/-- Every join the edges imply, to a fixpoint. -/
def close (g : Graph ι) : Graph ι := Loop.run closeStep g.fuel g

/-- The components of more than one channel, each in canonical channel order, in
the order of their first channels. -/
def cycles (g : Graph ι) : List (List Channel) :=
  let components := Tarjan.components g.vertices fun c => (g.from c).map Edge.to
  Cmp.sortBy (fun a b => match a.head?, b.head? with
      | some a, some b => compareChannels a b
      | _, _ => .eq)
    ((components.filter fun c => 1 < c.length).map (Cmp.sortBy compareChannels))

end Graph

/-! ## Forward search -/

/-- The channels a forward search reached from its start, each with the edge it
was first reached by, the start with none. -/
structure Reach (ι : Type) where
  reached : OMap Channel (Option (Edge ι))

namespace Reach

def new (start : Channel) : Reach ι := ⟨OMap.empty.set start none⟩

def has (r : Reach ι) (c : Channel) : Bool := r.reached.has c

/-- The reach with `c` reached through `via`; nothing when it was reached
before. -/
def arrive (r : Reach ι) (c : Channel) (via : Edge ι) : Option (Reach ι) :=
  if r.has c then none else some ⟨r.reached.set c (some via)⟩

/-- Every channel reached, the start first, in the order they were reached. -/
def channels (r : Reach ι) : List Channel := r.reached.keys

/-- The edges back from `c` to the start, put in front of `trail`. -/
def back (r : Reach ι) : Nat → Channel → List (Edge ι) → List (Edge ι)
  | 0, _, trail => trail
  | fuel + 1, c, trail =>
    match r.reached.get? c with
    | some (some via) => back r fuel via.from (via :: trail)
    | _ => trail

/-- The edges of the path the search took to `c`, empty for the start, none when
not reached. -/
def pathTo (r : Reach ι) (c : Channel) : Option (List (Edge ι)) :=
  if r.has c then some (r.back r.reached.size c []) else none

end Reach

namespace Graph

/-- A search in progress: what is reached, the channels still to be expanded,
and whether `until` was met. -/
structure Search (ι : Type) where
  reach : Reach ι
  frontier : List Channel
  met : Bool

/-- The edges of one channel, up to the one that meets `until`. -/
def expand (replaces : Option Side) (til : Option Channel) :
    List (Edge ι) → Search ι → Search ι
  | [], s => s
  | edge :: rest, s =>
    if replaces.any (fun side => edge.replaces ≠ side) then expand replaces til rest s
    else match s.reach.arrive edge.to edge with
      | none => expand replaces til rest s
      | some reach =>
        if til = some edge.to then { s with reach, met := true }
        else expand replaces til rest
          { s with reach, frontier := s.frontier ++ [edge.to] }

def searchStep (g : Graph ι) (replaces : Option Side) (til : Option Channel)
    (s : Search ι) : Option (Search ι) :=
  if s.met then none
  else match s.frontier with
    | [] => none
    | c :: rest =>
      let edges := Cmp.sortBy (fun a b => compareChannels a.to b.to) (g.from c)
      some (expand replaces til edges { s with frontier := rest })

/-- Every channel forward edges of the given kind, or of any, reach from
`start`, breadth first over edges in canonical order; the search stops once it
reaches `til`, when one is given. -/
def reach (g : Graph ι) (start : Channel) (replaces : Option Side)
    (til : Option Channel := none) : Reach ι :=
  if til = some start then Reach.new start
  else (Loop.run (g.searchStep replaces til) (g.out.size + 1)
    ⟨Reach.new start, [start], false⟩).reach

/-- The shortest forward path from `a` to `b` as its edges, empty for the same
channel, none when there is none. -/
def path (g : Graph ι) (a b : Channel) : Option (List (Edge ι)) :=
  (g.reach a none (some b)).pathTo b

end Graph

/-! ## Closure -/

/-- Candidates admitted so far, each with what confirmed it, those still
waiting, and the graph of the former. -/
structure Closure (ι : Type) where
  graph : Graph ι
  admitted : List (Link ι × Finset ι)
  waiting : List (Link ι)

namespace Closure

def build (peerLinks : List (Link ι)) (admits : Channel → Bool)
    (admitted : List (Link ι × Finset ι)) : Graph ι :=
  let g := peerLinks.foldl
    (fun g link => g.add link.from link.to .peer {link.identity} false) (Graph.new admits)
  let g := admitted.foldl
    (fun g (link, support) =>
      g.add link.from link.to .local (insert link.identity support) false) g
  g.close

/-- One pass over the candidates still waiting, all judged against one graph;
none when it admits nothing. -/
def round (peerLinks : List (Link ι)) (admits : Channel → Bool)
    (confirms : Graph ι → Link ι → Option (Finset ι)) (s : Closure ι) :
    Option (Closure ι) :=
  let progressed := s.waiting.filterMap fun link =>
    (confirms s.graph link).map fun support => (link, support)
  if progressed.isEmpty then none
  else
    let admitted := s.admitted ++ progressed
    some ⟨build peerLinks admits admitted, admitted,
      s.waiting.filter fun link => (confirms s.graph link).isNone⟩

end Closure

/-- The least graph over the given links and the candidates `confirms` admits.
A candidate is judged against the graph built without it and every candidate
still waiting, so nothing it derives can confirm it. -/
def closure (peerLinks candidates : List (Link ι)) (admits : Channel → Bool)
    (confirms : Graph ι → Link ι → Option (Finset ι)) : Closure ι :=
  Loop.run (Closure.round peerLinks admits confirms) candidates.length
    ⟨Closure.build peerLinks admits [], [], candidates⟩

/-! ## Contexts -/

/-- Union-find over the channels: the contexts one kind of edge connects. A
search compresses the paths it takes; since that changes no root, the parents
it leaves behind are not kept. -/
abbrev Contexts := UnionFind.Parents Channel

namespace Contexts

def new (g : Graph ι) (replaces : Side) : Contexts :=
  UnionFind.ofPairs compareChannels
    ((g.edges.filter fun e => e.replaces = replaces).map fun e => (e.from, e.to))

/-- The root of the context; the channel itself when no edge of this kind
touches it. -/
def root (contexts : Contexts) (c : Channel) : Channel := UnionFind.root contexts c

end Contexts

end Estoc.Continuity
