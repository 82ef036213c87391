import Estoc.Continuity.Arrival
import Estoc.Vault.Fold

/-!
# The continuity package under the folds

The folds ask a model derived over facts, and take its answers as they come. Here it is the
continuity package that answers: the host's DIDs and channels are the package's, each as
the text it is, and what the package says of them comes back the same way. A DID with a
surrogate that stands alone or with U+0000 is none of the package's, so no fact names it and
nothing is connected to it.

What the folds may rely on then is that same-local contexts are classes: a channel is in its
own, and every member of a context has that very context.
-/

set_option linter.unusedSectionVars false

namespace Estoc.Vault

open Json (lit)
open Utf16 (JsString)
open Estoc.Continuity.Units (unitsOf)

abbrev ModelDid := Estoc.Continuity.Did
abbrev ModelChannel := Estoc.Continuity.Channel
abbrev ModelFact := Estoc.Continuity.ContinuityFact
abbrev Model := Estoc.Continuity.Model

/-! ## To the package and back -/

def asDid (did : ModelDid) : Did := unitsOf did.text

def asChannel (channel : ModelChannel) : Channel := ⟨asDid channel.localDid, asDid channel.peerDid⟩

def asModelDid (did : Did) : Option ModelDid :=
  if h : Utf16.loneSurrogate did = false ∧ '\x00' ∉ (String.ofList (Utf16.chars did)).toList then
    some ⟨String.ofList (Utf16.chars did), h.2⟩
  else none

def asModelChannel (channel : Channel) : Option ModelChannel := do
  let localDid ← asModelDid channel.localDid
  let peerDid ← asModelDid channel.peerDid
  pure ⟨localDid, peerDid⟩

def asModelFact : ContinuityFact → Option ModelFact
  | .peerObservation at_ none => do
    let channel ← asModelChannel at_
    pure (.peerObservation channel none)
  | .peerObservation at_ (some rotatedFrom) => do
    let channel ← asModelChannel at_
    let did ← asModelDid rotatedFrom
    pure (.peerObservation channel (some did))
  | .peerEnding at_ => do
    let channel ← asModelChannel at_
    pure (.peerEnding channel)
  | .localDecision at_ (.rotate successor) => do
    let channel ← asModelChannel at_
    let did ← asModelDid successor
    pure (.localDecision channel (.rotate did))
  | .localDecision at_ .ending => do
    let channel ← asModelChannel at_
    pure (.localDecision channel .ending)

def asModelSide : Side → Estoc.Continuity.Side
  | .ours => .local
  | .peer => .peer

def asChange : Estoc.Continuity.Change → Change
  | .rotate successor => .rotate (asDid successor)
  | .ending => .ending

theorem asModelDid_asDid (did : ModelDid) : asModelDid (asDid did) = some did := by
  have hlone : Utf16.loneSurrogate (asDid did) = false := Utf16.loneSurrogate_ofChars _
  have htext : String.ofList (Utf16.chars (asDid did)) = did.text := by
    rw [asDid, unitsOf, Utf16.chars_ofChars, String.ofList_toList]
  have hnul : '\x00' ∉ (String.ofList (Utf16.chars (asDid did))).toList := by
    rw [htext]
    exact did.noNul
  rw [asModelDid, dif_pos ⟨hlone, hnul⟩]
  exact congrArg some (Estoc.Continuity.Did.text_injective htext)

theorem asDid_of_asModelDid {did : Did} {d : ModelDid} (h : asModelDid did = some d) :
    asDid d = did := by
  unfold asModelDid at h
  split at h
  · next hwell =>
    cases h
    rw [asDid, unitsOf, String.toList_ofList, Utf16.ofChars_chars hwell.1]
  · cases h

theorem asModelChannel_asChannel (channel : ModelChannel) :
    asModelChannel (asChannel channel) = some channel := by
  rw [asModelChannel, asChannel, asModelDid_asDid, asModelDid_asDid]
  rfl

theorem asChannel_of_asModelChannel {channel : Channel} {c : ModelChannel}
    (h : asModelChannel channel = some c) : asChannel c = channel := by
  obtain ⟨l, hl, h⟩ := Option.bind_eq_some_iff.mp h
  obtain ⟨p, hp, h⟩ := Option.bind_eq_some_iff.mp h
  cases h
  rw [asChannel, asDid_of_asModelDid hl, asDid_of_asModelDid hp]

/-! ## The answers -/

/-- No fact names a DID that is none of the package's. -/
def hostedHead (m : Model) (channel : Channel) : HeadResult :=
  match asModelChannel channel with
  | none => .noEvidence
  | some c =>
    match m.head c with
    | .head head _ => .head (asChannel head)
    | .ended _ => .ended
    | .unresolved _ => .unresolved
    | .conflict _ => .conflict
    | .noEvidence => .noEvidence

def hostedChanges (m : Model) (channel : Channel) (side : Side) : List Change :=
  match asModelChannel channel with
  | none => []
  | some c => (m.changes c (asModelSide side)).map fun record => asChange record.change

/-- A conflict at either end is one, whatever the other end is. -/
def hostedPath (m : Model) (a b : Channel) : PathResult :=
  match asModelChannel a, asModelChannel b with
  | some a, some b =>
    match m.path a b with
    | .path _ _ => .path
    | .none => .none
    | .conflict _ => .conflict
  | some c, none | none, some c => if m.conflictFactsAt c ≠ ∅ then .conflict else .none
  | none, none => .none

def hostedHistory (m : Model) (channel : Channel) : History :=
  match asModelChannel channel with
  | none => ⟨[], [channel]⟩
  | some c =>
    { links := (m.history c).links.map fun link => ⟨asChannel link.from, asChannel link.to⟩
      sameLocal := (m.history c).sameLocal.map asChannel }

/-- The host asks after facts the model was derived over, which it has an answer for. -/
def hostedStatus (m : Model) (fact : ContinuityFact) : FactStatus :=
  match asModelFact fact with
  | none => .unknown
  | some f =>
    match m.status f with
    | .ok (.conflict _ because) => .conflict (unitsOf because)
    | .ok (.waiting because) => .waiting (unitsOf because)
    | .ok (.usable _) => .usable
    | .ok .unknown | .error _ => .unknown

def hosted (m : Model) : ContinuityModel :=
  ⟨hostedHead m, hostedChanges m, hostedPath m, hostedHistory m, hostedStatus m⟩

/-- The model over the facts. A fact the package refuses throws out of the fold, and there is
no model to ask; that case is filled by the model of nothing. -/
def deriveHosted (facts : List ContinuityFact) : ContinuityModel :=
  match (facts.mapM asModelFact).bind fun fs => (Estoc.Continuity.deriveContinuity fs).toOption with
  | some m => hosted m
  | none => hosted (Estoc.Continuity.Model.ofEntries [])

/-- The folds' surroundings with the continuity package in its place. -/
def Outside.hosting (O : Outside) : Outside := { O with deriveContinuity := deriveHosted }

/-! ## Same-local contexts are classes -/

/-- A channel is in its own context, and a member of a context has that context. -/
structure Contexts (model : ContinuityModel) : Prop where
  self : ∀ c, c ∈ (model.history c).sameLocal
  same : ∀ {c d}, d ∈ (model.history c).sameLocal →
    (model.history d).sameLocal = (model.history c).sameLocal

section

open Estoc.Continuity (contextOf mem_contextOf contexts_root Entries sortedChannels)
open Estoc.Continuity.Model (ofEntries)

variable {entries : Entries}

/-- A channel whose root is another's has links, and is known. -/
theorem known_of_root (hE : entries.Wf) {c d : ModelChannel} (hne : c ≠ d)
    (h : (ofEntries entries).sameLocal.root c = (ofEntries entries).sameLocal.root d) :
    c ∈ (ofEntries entries).positive.vertices := by
  have hpositive := Estoc.Continuity.Model.positive_positive hE
  rw [show (ofEntries entries).sameLocal =
    Estoc.Continuity.Contexts.new (ofEntries entries).positive .peer from rfl, contexts_root] at h
  -- by the links that connect the two, one of which touches the first
  have hor : ∀ {a b}, Relation.EqvGen ((ofEntries entries).positive.Leads (some .peer)) a b →
      a = b ∨ a ∈ (ofEntries entries).positive.vertices ∧
        b ∈ (ofEntries entries).positive.vertices := by
    intro a b hab
    induction hab with
    | rel a b hlead =>
        obtain ⟨e, he, rfl, rfl, _⟩ := hlead
        exact Or.inr (hpositive.ends he)
    | refl a => exact Or.inl rfl
    | symm a b _ ih => exact ih.imp Eq.symm And.symm
    | trans a b c _ _ ih ih' =>
        rcases ih with rfl | ih
        · exact ih'
        · rcases ih' with rfl | ih'
          · exact Or.inr ih
          · exact Or.inr ⟨ih.1, ih'.2⟩
  exact (hor h).elim (fun heq => absurd heq hne) And.left

theorem contextOf_eq (hE : entries.Wf) {c d : ModelChannel}
    (h : d ∈ contextOf (ofEntries entries).positive (ofEntries entries).sameLocal c) :
    contextOf (ofEntries entries).positive (ofEntries entries).sameLocal d =
      contextOf (ofEntries entries).positive (ofEntries entries).sameLocal c := by
  rcases mem_contextOf.mp h with rfl | ⟨hd, hroot⟩
  · rfl
  · by_cases hne : c = d
    · rw [hne]
    · have hc := known_of_root hE hne hroot.symm
      unfold contextOf
      simp only [hroot]
      refine Cmp.sortBy_eq_of_perm ((List.perm_ext_iff_of_nodup (List.nodup_dedup _)
        (List.nodup_dedup _)).mpr fun x => ?_)
      simp only [List.mem_dedup, List.mem_cons, List.mem_filter, decide_eq_true_eq]
      constructor
      · rintro (rfl | h)
        · exact Or.inr ⟨hd, hroot⟩
        · exact Or.inr h
      · rintro (rfl | h)
        · exact Or.inr ⟨hc, rfl⟩
        · exact Or.inr h

theorem contexts_hosted (hE : entries.Wf) : Contexts (hosted (ofEntries entries)) where
  self c := by
    show c ∈ (hostedHistory _ c).sameLocal
    unfold hostedHistory
    split
    · exact List.mem_singleton.mpr rfl
    · next x hx =>
      exact List.mem_map.mpr ⟨x, mem_contextOf.mpr (Or.inl rfl), asChannel_of_asModelChannel hx⟩
  same {c d} h := by
    change d ∈ (hostedHistory _ c).sameLocal at h
    show (hostedHistory _ d).sameLocal = (hostedHistory _ c).sameLocal
    unfold hostedHistory at h ⊢
    split at h
    · next hnone =>
      rw [List.mem_singleton.mp h, hnone]
    · next x hx =>
      obtain ⟨y, hy, rfl⟩ := List.mem_map.mp h
      simp only [asModelChannel_asChannel]
      exact congrArg (List.map asChannel) (contextOf_eq hE hy)

theorem contexts_deriveHosted (facts : List ContinuityFact) : Contexts (deriveHosted facts) := by
  unfold deriveHosted
  split
  · next m hm =>
    obtain ⟨fs, _, hfs⟩ := Option.bind_eq_some_iff.mp hm
    cases hderive : Estoc.Continuity.deriveContinuity fs with
    | error e => rw [hderive] at hfs; cases hfs
    | ok m' =>
        rw [hderive] at hfs
        cases hfs
        obtain ⟨entries, hentries, rfl⟩ := Estoc.Continuity.entries_of_derived hderive
        exact contexts_hosted hentries.wf
  · exact contexts_hosted ⟨List.nodup_nil, (fun h => by cases h), fun h => by cases h⟩

end

end Estoc.Vault
