import Estoc.Continuity.Graph

/-!
# The continuity model

What is derived from a set of facts, in the order the evidence depends on
itself: the facts accepted, the positive closure, contexts and conflicts over
that whole graph, and only then usable continuity, the same closure again
admitting no channel a conflict reaches. The queries follow.

Sets of identities are finite sets here. Wherever the source lists one in an
answer it sorts it first (`factsOf`), so nothing it returns depends on the
order it collected them in. The two indexes the source keeps beside its graphs
(the rotations by context, the usable links by the change they make) are read
as the filters they answer.
-/

namespace Estoc.Continuity

/-- The supports of several edges together. -/
def supportOf {ι : Type} [DecidableEq ι] (edges : List (Edge ι)) : Finset ι :=
  edges.foldr (fun e s => e.support ∪ s) ∅

/-- The DID an edge changes its endpoint to. -/
def Edge.successor {ι : Type} (e : Edge ι) : Did :=
  match e.replaces with
  | .local => e.to.localDid
  | .peer => e.to.peerDid

/-- The change a fact claims of one side's endpoint: `at` the pair it leaves,
`to` the successor pair a rotation names. -/
structure Claim where
  side : Side
  «at» : Channel
  change : Change
  «to» : Option Channel

/-- An observation that carried a rotation claims the peer's rotation at the
pair the peer rotated from; an observation that carried none claims no
change. -/
def claimOf : ContinuityFact → Option Claim
  | .peerObservation _ none => none
  | .peerObservation c (some d) =>
      some ⟨.peer, ⟨c.localDid, d⟩, .rotate c.peerDid, some c⟩
  | .peerEnding c => some ⟨.peer, c, .ending, none⟩
  | .localDecision c .ending => some ⟨.local, c, .ending, none⟩
  | .localDecision c (.rotate d) => some ⟨.local, c, .rotate d, some ⟨d, c.peerDid⟩⟩

structure Entry where
  fact : ContinuityFact
  identity : FactIdentity
  claim : Option Claim
  /-- the pairs the fact sits at: its own, and the pair its claim leaves -/
  sites : List Channel
  /-- the pairs it sits at and the successor pair it names -/
  pairs : List Channel

def entryOf (identity : FactIdentity) (fact : ContinuityFact) : Entry :=
  let claim := claimOf fact
  let sites := sortedChannels (fact.at :: (claim.map Claim.at).toList)
  { fact, identity, claim, sites
    pairs := sortedChannels (sites ++ (claim.bind Claim.to).toList) }

/-- The facts validated, each once, in the order of their identities. -/
def accept (facts : List ContinuityFact) :
    Except InvalidFact (List (FactIdentity × ContinuityFact)) := do
  let accepted ← facts.zipIdx.foldlM (fun accepted (value, index) => do
    let fact ← validateFact value s!"facts[{index}]"
    pure (accepted.set (identityOf fact) fact)) (OMap.empty : OMap FactIdentity ContinuityFact)
  pure (Cmp.sortBy (fun a b => compareUtf8 a.1 b.1) accepted.entries)

/-- A contradiction in the evidence, with its scope. -/
inductive Conflict where
  | competingChanges (side : Side) (context : List Channel)
      (changes : List (Change × List ContinuityFact)) (scope : List Channel)
  | cycle (channels : List Channel) (facts : List ContinuityFact) (scope : List Channel)
  | identityCollision (channels : List Channel) (facts : List ContinuityFact)
      (scope : List Channel)

namespace Conflict

def kind : Conflict → String
  | competingChanges .. => "competing-changes"
  | cycle .. => "cycle"
  | identityCollision .. => "identity-collision"

def scope : Conflict → List Channel
  | competingChanges _ _ _ scope => scope
  | cycle _ _ scope => scope
  | identityCollision _ _ scope => scope

/-- The channel a conflict is sorted by, after its kind. -/
def firstChannel : Conflict → Option Channel
  | competingChanges _ context _ _ => context.head?
  | cycle channels _ _ => channels.head?
  | identityCollision channels _ _ => channels.head?

def compare (a b : Conflict) : Ordering :=
  (compareUtf8 a.kind b.kind).then
    (match a.firstChannel, b.firstChannel with
      | some a, some b => compareChannels a b
      | _, _ => .eq)

end Conflict

/-- A conflict with the identities of the facts involved. -/
structure Found where
  conflict : Conflict
  identities : Finset FactIdentity

/-! ## The stages -/

abbrev Entries := List Entry

namespace Entries

variable (entries : Entries)

def ofFacts (accepted : List (FactIdentity × ContinuityFact)) : Entries :=
  accepted.map fun (identity, fact) => entryOf identity fact

/-- The facts of the identities, in the order of the identities. -/
def factsOf (identities : Finset FactIdentity) : List ContinuityFact :=
  (entries.filter fun e => e.identity ∈ identities).map Entry.fact

def linksOf (side : Side) (admits : Entry → Bool) : List (Link FactIdentity) :=
  entries.filterMap fun entry =>
    match entry.claim with
    | none => none
    | some claim =>
      if claim.side ≠ side || !admits entry then none
      else claim.to.map fun successor => ⟨entry.identity, claim.at, successor⟩

def peerLinks (admits : Entry → Bool) : List (Link FactIdentity) :=
  linksOf entries .peer admits

def candidates (admits : Entry → Bool) : List (Link FactIdentity) :=
  linksOf entries .local admits

/-- The observations `admits` of a peer writing to a local DID. -/
def writersOf (admits : Entry → Bool) : List Entry :=
  entries.filter fun entry =>
    match entry.fact with
    | .peerObservation _ _ => admits entry
    | _ => false

end Entries

/-- What confirms a candidate's predecessor address in the graph so far: every
writer's observation addressed to the predecessor by its peer, or by a peer a
path of peer rotations from the predecessor reaches. The support names each
observation and the path to its peer. -/
def confirming (writers : List Entry) (graph : Graph FactIdentity)
    (link : Link FactIdentity) : Option (Finset FactIdentity) :=
  let peers := writers.filter fun e => e.fact.at.localDid = link.from.localDid
  if peers.isEmpty then none
  else
    let reach := graph.reach link.from (some .peer)
    let support := reach.channels.foldr (fun channel support =>
      (peers.filter fun e => e.fact.at.peerDid = channel.peerDid).foldr
        (fun observation support =>
          insert observation.identity
            (supportOf ((reach.pathTo channel).getD []) ∪ support))
        support) ∅
    if support = ∅ then none else some support

/-- The claims of one endpoint in one context, as they are collected. -/
structure Group where
  channel : Channel
  successors : List Channel
  changes : OMap Change (Finset FactIdentity)

def Group.claim (group : Group) (identity : FactIdentity) (claim : Claim) : Group :=
  { group with
    changes := group.changes.set claim.change
      (insert identity ((group.changes.get? claim.change).getD ∅))
    successors := group.successors ++ claim.to.toList }

/-- The pairs of `channel`'s context, itself included. -/
def contextOf (positive : Graph FactIdentity) (contexts : Contexts) (channel : Channel) :
    List Channel :=
  let root := contexts.root channel
  sortedChannels (channel :: positive.vertices.filter fun v => contexts.root v = root)

def groups (entries : Entries) (contexts : Contexts) (side : Side) : OMap Channel Group :=
  entries.foldl (fun byContext entry =>
    match entry.claim with
    | none => byContext
    | some claim =>
      if claim.side ≠ side then byContext
      else
        let root := contexts.root claim.at
        let group := (byContext.get? root).getD ⟨claim.at, [], OMap.empty⟩
        byContext.set root (group.claim entry.identity claim)) OMap.empty

/-- Competing changes of one endpoint in one context, every fact counted
whatever its status. -/
def competing (entries : Entries) (positive : Graph FactIdentity) (contexts : Contexts)
    (side : Side) : List Found :=
  (groups entries contexts side).values.filterMap fun group =>
    if group.changes.size < 2 then none
    else
      let listed := Cmp.sortBy (fun a b => compareUtf8 (changeKey a.1) (changeKey b.1))
        group.changes.entries
      let context := contextOf positive contexts group.channel
      some {
        conflict := .competingChanges side context
          (listed.map fun (change, identities) => (change, Entries.factsOf entries identities))
          (sortedChannels (context ++ group.successors))
        identities := listed.foldr (fun c s => c.2 ∪ s) ∅ }

def cyclesFound (entries : Entries) (positive : Graph FactIdentity) : List Found :=
  positive.cycles.map fun channels =>
    let identities := supportOf (channels.flatMap fun channel =>
      (positive.from channel).filter fun e => e.to ∈ channels)
    ⟨.cycle channels (Entries.factsOf entries identities) channels, identities⟩

def collisionsFound (entries : Entries) (positive : Graph FactIdentity) : List Found :=
  positive.identityCollisions.values.map fun collision =>
    ⟨.identityCollision collision.channels
        (Entries.factsOf entries collision.support) (sortedChannels collision.channels),
      collision.support⟩

def findConflicts (entries : Entries) (positive : Graph FactIdentity)
    (samePeer sameLocal : Contexts) : List Found :=
  Cmp.sortBy (fun a b => a.conflict.compare b.conflict)
    (competing entries positive samePeer .peer ++
      competing entries positive sameLocal .local ++
      cyclesFound entries positive ++ collisionsFound entries positive)

structure Model where
  entries : Entries
  positive : Graph FactIdentity
  positiveWaiting : List FactIdentity
  samePeer : Contexts
  sameLocal : Contexts
  found : List Found
  usable : Graph FactIdentity
  usableAdmitted : List (FactIdentity × Finset FactIdentity)
  usableSamePeer : Contexts
  usableSameLocal : Contexts

/-- The facts of every conflict whose scope reaches the channel. -/
def conflictFactsIn (found : List Found) (c : Channel) : Finset FactIdentity :=
  found.foldr (fun f s => if c ∈ f.conflict.scope then f.identities ∪ s else s) ∅

def affectedIn (found : List Found) (c : Channel) : Bool :=
  found.any fun f => c ∈ f.conflict.scope

/-- No conflict reaches a pair the fact sits at or names. -/
def clearIn (found : List Found) (entry : Entry) : Bool :=
  entry.pairs.all fun pair => !affectedIn found pair

def Model.ofEntries (entries : Entries) : Model :=
  let every : Entry → Bool := fun _ => true
  let positive := closure (entries.peerLinks every) (entries.candidates every)
    (fun _ => true) (confirming (entries.writersOf every))
  let graph := entries.foldl (fun g e => e.sites.foldl Graph.vertex g) positive.graph
  let samePeer := Contexts.new graph .local
  let sameLocal := Contexts.new graph .peer
  let found := findConflicts entries graph samePeer sameLocal
  let clear := clearIn found
  let usable := closure (entries.peerLinks clear) (entries.candidates clear)
    (fun c => !affectedIn found c) (confirming (entries.writersOf clear))
  { entries
    positive := graph
    positiveWaiting := positive.waiting.map Link.identity
    samePeer
    sameLocal
    found
    usable := usable.graph
    usableAdmitted := usable.admitted.map fun (link, support) => (link.identity, support)
    usableSamePeer := Contexts.new usable.graph .local
    usableSameLocal := Contexts.new usable.graph .peer }

/-- Throws `InvalidFact` for a value the profile refuses. -/
def deriveContinuity (facts : List ContinuityFact) : Except InvalidFact Model := do
  let accepted ← accept facts
  pure (Model.ofEntries (Entries.ofFacts accepted))

/-! ## Queries -/

inductive HeadResult where
  | head (channel : Channel) (support : List ContinuityFact)
  | ended (endings : List ContinuityFact)
  | unresolved (waiting : List ContinuityFact)
  | conflict (facts : List ContinuityFact)
  | noEvidence
deriving DecidableEq

inductive FactStatus where
  | unknown
  | conflict (facts : List ContinuityFact) (because : String)
  | waiting (because : String)
  | usable (support : List ContinuityFact)
deriving DecidableEq

inductive PathResult where
  | path (channels : List Channel) (support : List ContinuityFact)
  | none
  | conflict (facts : List ContinuityFact)
deriving DecidableEq

/-- One observation that confirms the address, with a complete witness. -/
structure Confirmation where
  fact : ContinuityFact
  support : List ContinuityFact
deriving DecidableEq

inductive ConfirmationResult where
  | confirmed (observations : List Confirmation)
  | unconfirmed (unusable : List ContinuityFact)
  | conflict (facts : List ContinuityFact)
deriving DecidableEq

/-- What the search for a head collects on the way. -/
structure Collected where
  conflict : Finset FactIdentity
  endings : Finset FactIdentity
  waiting : Finset FactIdentity
  support : Finset FactIdentity

namespace Collected

def empty : Collected := ⟨∅, ∅, ∅, ∅⟩

def union (a b : Collected) : Collected :=
  ⟨a.conflict ∪ b.conflict, a.endings ∪ b.endings, a.waiting ∪ b.waiting,
    a.support ∪ b.support⟩

end Collected

namespace Model

variable (m : Model)

def factsOf (identities : Finset FactIdentity) : List ContinuityFact :=
  m.entries.factsOf identities

def conflictFactsAt (c : Channel) : Finset FactIdentity := conflictFactsIn m.found c

def affected (c : Channel) : Bool := affectedIn m.found c

def clear (entry : Entry) : Bool := clearIn m.found entry

def conflictingWith (entry : Entry) : Finset FactIdentity :=
  entry.pairs.foldr (fun pair s => m.conflictFactsAt pair ∪ s) ∅

def contextsOf : Side → Contexts
  | .peer => m.samePeer
  | .local => m.sameLocal

/-- The context of a change of `side` at `c` as usable links connect it. -/
def usableContextRoot (c : Channel) : Side → Channel
  | .peer => m.usableSamePeer.root c
  | .local => m.usableSameLocal.root c

/-- Whether a usable link makes this change somewhere in the usable context of
the pair. -/
def usablyEstablished (side : Side) (c : Channel) (successor : Did) : Bool :=
  m.usable.edges.any fun e => e.replaces = side && e.successor = successor &&
    m.usableContextRoot e.from side = m.usableContextRoot c side

def claimsIn (c : Channel) (side : Side) : List (Entry × Claim) :=
  m.entries.filterMap fun entry =>
    match entry.claim with
    | none => none
    | some claim =>
      if claim.side = side &&
          (m.contextsOf side).root claim.at = (m.contextsOf side).root c
      then some (entry, claim) else none

def endingsAt (c : Channel) (side : Side) : List (Entry × Claim) :=
  (m.claimsIn c side).filter fun p => p.2.change = .ending

/-- The saved local rotations of the positive same-local context of `c`, each
with its successor. -/
def rotationsAt (c : Channel) : List (Entry × Claim × Did) :=
  (m.claimsIn c .local).filterMap fun (entry, claim) =>
    match claim.change with
    | .rotate successor => some (entry, claim, successor)
    | .ending => none

def known (c : Channel) : Bool := c ∈ m.positive.vertices

/-- A local rotation without usable continuation, diagnosed as the fact query
diagnoses it. -/
def pendingDecision (entry : Entry) : Collected :=
  let conflicting := m.conflictingWith entry
  { Collected.empty with
    conflict := conflicting
    waiting := if conflicting = ∅ && !(m.usableAdmitted.any fun a => a.1 = entry.identity)
      then {entry.identity} else ∅ }

/-- A pair some fact sits at, or a usable link leads to. -/
def established (c : Channel) : Bool :=
  (m.entries.any fun e => c ∈ e.sites) || !(m.usable.to c).isEmpty

/-- What an unknown pair is waiting for: the local rotations that name it. -/
def collectUnknown (c : Channel) : Collected :=
  m.entries.foldl (fun acc entry =>
    match entry.claim with
    | none => acc
    | some claim =>
      if claim.side = .local && claim.to = some c then acc.union (m.pendingDecision entry)
      else acc) Collected.empty

def collectEdge (current : Channel) (edge : Edge FactIdentity) : Collected :=
  match m.usable.edge? edge.from edge.to with
  | some usable => { Collected.empty with support := usable.support }
  | none =>
    if m.usablyEstablished edge.replaces current edge.successor then Collected.empty
    else { Collected.empty with conflict := edge.support }

def collectEndings (current : Channel) (side : Side) : Collected :=
  let found := m.endingsAt current side
  let root := m.usableContextRoot current side
  let affirmative := found.filter fun p => m.usableContextRoot p.2.at side = root
  let identities (l : List (Entry × Claim)) := (l.map fun p => p.1.identity).toFinset
  { Collected.empty with
    endings := identities affirmative
    conflict := if affirmative.isEmpty then identities found else ∅ }

def collectRotation (current : Channel) (rotation : Entry × Claim × Did) : Collected :=
  let (entry, claim, successor) := rotation
  if m.usablyEstablished .local current successor then Collected.empty
  else if m.usableContextRoot claim.at .local = m.usableContextRoot current .local then
    m.pendingDecision entry
  else { Collected.empty with conflict := {entry.identity} }

/-- What one channel of the positive reach adds. -/
def collectAt (usableReach : Reach FactIdentity) (current : Channel) : Collected :=
  if !usableReach.has current then
    if m.positive.hasOutgoing current then Collected.empty
    else { Collected.empty with conflict := supportOf (m.positive.to current) }
  else
    let all := (m.positive.from current).map (m.collectEdge current) ++
      [m.collectEndings current .peer, m.collectEndings current .local] ++
      (m.rotationsAt current).map (m.collectRotation current)
    all.foldl Collected.union Collected.empty

/-- Everything the search for the head of a known pair collects once no
conflict reaches it directly. -/
def collect (c : Channel) : Collected :=
  let usableReach := m.usable.reach c none
  ((m.positive.reach c none).channels.map (m.collectAt usableReach)).foldl
    Collected.union Collected.empty

/-- The conflicts that reach a known pair forward, and the provenance of a pair
that only conflicted links lead to. -/
def reaching (c : Channel) : Finset FactIdentity :=
  (m.positive.reach c none).channels.foldr (fun current s => m.conflictFactsAt current ∪ s)
    (if m.established c then ∅ else supportOf (m.positive.to c))

/-- The channels of the usable forward reach that no usable link leaves. -/
def ends (c : Channel) : List Channel :=
  (m.usable.reach c none).channels.filter fun current => !m.usable.hasOutgoing current

def head (c : Channel) : HeadResult :=
  if !m.known c then
    let conflict := m.conflictFactsAt c
    if conflict ≠ ∅ then .conflict (m.factsOf conflict)
    else
      let found := m.collectUnknown c
      if found.conflict ≠ ∅ then .conflict (m.factsOf found.conflict)
      else if found.waiting ≠ ∅ then .unresolved (m.factsOf found.waiting)
      else .noEvidence
  else
    let conflict := m.reaching c
    if conflict ≠ ∅ then .conflict (m.factsOf conflict)
    else
      let found := m.collect c
      if found.conflict ≠ ∅ then .conflict (m.factsOf found.conflict)
      else if found.endings ≠ ∅ then .ended (m.factsOf found.endings)
      else if found.waiting ≠ ∅ then .unresolved (m.factsOf found.waiting)
      else match m.ends c with
        | [h] => .head h (m.factsOf found.support)
        | _ => .conflict (m.factsOf found.support)

def path (a b : Channel) : PathResult :=
  let conflict := m.conflictFactsAt a ∪ m.conflictFactsAt b
  if conflict ≠ ∅ then .conflict (m.factsOf conflict)
  else if !m.known a then .none
  else match m.usable.path a b with
    | none => .none
    | some edges => .path (a :: edges.map Edge.to) (m.factsOf (supportOf edges))

/-- The observations to the local DID by a peer that usable peer links lead to
from the pair, each with the path to it; none for a pair of one DID. -/
def observationsReached (localDid peerDid : Did) :
    List (Entry × List (Edge FactIdentity)) :=
  if localDid = peerDid then []
  else
    let reach := m.usable.reach ⟨localDid, peerDid⟩ (some .peer)
    m.entries.filterMap fun entry =>
      match entry.fact with
      | .peerObservation c _ =>
        if c.localDid ≠ localDid then none
        else (reach.pathTo c).map fun via => (entry, via)
      | _ => none

/-- One observation with the facts that witness it. -/
def witnessed (observation : Entry × List (Edge FactIdentity)) : Confirmation :=
  ⟨observation.1.fact,
    m.factsOf (insert observation.1.identity (supportOf observation.2))⟩

def confirmation (localDid peerDid : Did) : ConfirmationResult :=
  let conflict := m.conflictFactsAt ⟨localDid, peerDid⟩
  if conflict ≠ ∅ then .conflict (m.factsOf conflict)
  else
    let reached := m.observationsReached localDid peerDid
    let observations := reached.filter fun p => m.clear p.1
    if observations.isEmpty then
      .unconfirmed ((reached.filter fun p => !m.clear p.1).map fun p => p.1.fact)
    else .confirmed (observations.map m.witnessed)

/-- Every conflict with its scope. -/
def conflicts : List Conflict := m.found.map Found.conflict

def statusOf (entry : Entry) : FactStatus :=
  let conflict := m.conflictingWith entry
  if conflict ≠ ∅ then .conflict (m.factsOf conflict) "its context is in conflict"
  else
    match entry.fact with
    | .localDecision _ (.rotate _) =>
      match m.usableAdmitted.find? fun a => a.1 = entry.identity with
      | some (_, support) => .usable (m.factsOf (insert entry.identity support))
      | none =>
        if entry.identity ∈ m.positiveWaiting then
          .waiting "no observation addressed to the predecessor by its peer or a successor of that peer"
        else .waiting "the predecessor is confirmed only through continuity that is not usable"
    | _ => .usable [entry.fact]

/-- The status of the fact with the same content; `InvalidFact` for a value that
is not a fact of the profile. -/
def status (fact : ContinuityFact) : Except InvalidFact FactStatus := do
  let fact ← validateFact fact "fact"
  match m.entries.find? fun e => e.identity = identityOf fact with
  | none => pure .unknown
  | some entry => pure (m.statusOf entry)

end Model

/-! ## Records -/

/-- A rotation or ending as a fact claims it: `at` the pair the change leaves, `to` the
successor pair it names or none for an ending. -/
structure ChangeRecord where
  fact : ContinuityFact
  «at» : Channel
  change : Change
  «to» : Option Channel
  status : FactStatus
deriving DecidableEq

/-- A link of the positive graph: `derived` marks a join, `usable` a link the usable graph
has too. -/
structure PositiveLink where
  «from» : Channel
  «to» : Channel
  replaces : Side
  support : List ContinuityFact
  derived : Bool
  usable : Bool
deriving DecidableEq

structure EndingRecord where
  fact : ContinuityFact
  side : Side
  status : FactStatus
deriving DecidableEq

/-- Everything the positive graph connects to a channel, and the two contexts the channel
is in. -/
structure History where
  links : List PositiveLink
  endings : List EndingRecord
  samePeer : List Channel
  sameLocal : List Channel
deriving DecidableEq

namespace Model

variable (m : Model)

/-- The facts as derived over, each once, in the order of their identities. -/
def facts : List ContinuityFact := m.entries.map Entry.fact

/-- The changes of that side's endpoint across the channel's context, whatever their
status. -/
def changes (c : Channel) (side : Side) : List ChangeRecord :=
  (m.claimsIn c side).map fun p => ⟨p.1.fact, p.2.at, p.2.change, p.2.to, m.statusOf p.1⟩

def localDecisions (c : Channel) : List ChangeRecord := m.changes c .local

/-- What one link adds to a component: its other end, where the component has one of the
two. -/
def growBy (component : List Channel) (edge : Edge FactIdentity) : List Channel :=
  if (edge.from ∈ component) = (edge.to ∈ component) then component
  else if edge.from ∈ component then component ++ [edge.to] else component ++ [edge.from]

/-- One round over the links; over once a round adds nothing. -/
def grow (component : List Channel) : Option (List Channel) :=
  let grown := m.positive.edges.foldl growBy component
  if grown.length = component.length then none else some grown

/-- The channels links connect to `c`, in whichever direction. -/
def component (c : Channel) : List Channel :=
  Loop.run m.grow (2 * m.positive.edges.length) [c]

def link (edge : Edge FactIdentity) : PositiveLink :=
  { «from» := edge.from, «to» := edge.to, replaces := edge.replaces
    support := m.factsOf edge.support, derived := edge.derived
    usable := (m.usable.edge? edge.from edge.to).isSome }

def history (c : Channel) : History :=
  let component := m.component c
  let links := (m.positive.edges.filter fun e => e.from ∈ component).map m.link
  let endings := Cmp.sortBy (fun a b => compareUtf8 a.1.identity b.1.identity)
    (m.endingsAt c .peer ++ m.endingsAt c .local)
  { links := Cmp.sortBy
      (fun a b => (compareChannels a.from b.from).then (compareChannels a.to b.to)) links
    endings := endings.map fun p => ⟨p.1.fact, p.2.side, m.statusOf p.1⟩
    samePeer := contextOf m.positive m.samePeer c
    sameLocal := contextOf m.positive m.sameLocal c }

end Model

/-! ## The smallest diamond

One pair whose both ends rotate: the peer shows its new DID with the proof of the
old one, and our own choice of a new DID is confirmed by a receipt at the old
pair. -/

def aliceOld : Did := ⟨"A0", by decide⟩
def aliceNew : Did := ⟨"A1", by decide⟩
def bobOld : Did := ⟨"B0", by decide⟩
def bobNew : Did := ⟨"B1", by decide⟩

def bothRotated : List ContinuityFact :=
  [.peerObservation ⟨aliceOld, bobOld⟩ none,
    .localDecision ⟨aliceOld, bobOld⟩ (.rotate aliceNew),
    .peerObservation ⟨aliceOld, bobNew⟩ (some bobOld)]

theorem bothRotated_valid : ∀ f ∈ bothRotated, f.Valid := by
  simp only [bothRotated, List.forall_mem_cons, List.not_mem_nil, false_imp_iff, implies_true,
    and_true]
  refine ⟨⟨?_, ?_, ?_⟩, ⟨⟨?_, ?_, ?_⟩, ?_, ?_, ?_⟩, ⟨⟨?_, ?_, ?_⟩, ?_, ?_, ?_⟩⟩ <;> decide

/-- A second choice for the same pair, which contradicts the first. -/
def chosenTwice : List ContinuityFact :=
  .localDecision ⟨aliceOld, bobOld⟩ (.rotate ⟨"A2", by decide⟩) :: bothRotated

theorem chosenTwice_valid : ∀ f ∈ chosenTwice, f.Valid := by
  refine List.forall_mem_cons.mpr ⟨⟨⟨?_, ?_, ?_⟩, ?_, ?_, ?_⟩, bothRotated_valid⟩ <;> decide

end Estoc.Continuity
