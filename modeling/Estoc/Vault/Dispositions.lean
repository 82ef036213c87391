import Estoc.Lib.Rounds
import Estoc.Vault.Admission

/-!
# Which observations are owed an admission

An observation no effective or pending admission names is a candidate: whether it may be
admitted now is what refuses it for good, then what its evidence lacks, and only then what
current policy holds against it. The pass records what is owed in rounds, of each input the first
candidate that may be admitted, since the next of the input is judged against the intent this one
admits. Each round is one commit, after which the vault is folded again.
-/

set_option linter.unusedSectionVars false

namespace Estoc.Vault

open Json (lit)
open Utf16 (JsString)

/-- Whether an observation may be admitted now. -/
inductive Eligibility where
  | eligible
  | deferred (because : JsString)
  | refused (because : JsString)
  | invalid (because : JsString)
deriving DecidableEq

structure AdmissionCandidate where
  source : Source
  eligibility : Eligibility

section Dispositions

variable (evidence : ChannelEvidence) (continuity : Continuity) (admissions : AdmissionFold)
  (inbound : InboundFold)

/-- What the input an observation claims holds against it. -/
def inputAgainst (source : Source) : Option JsString :=
  match (inbound.ofSource source.event.cid).map Execution.status with
  | none => none
  | some (.conflict because) => some (lit "the input's admitted intents disagree: " ++ because)
  | some status =>
    if status.intentCid.any (· ≠ source.event.data.intentCid) then
      some (lit "the observation contradicts the intent its input has admitted")
    else none

/-- What current policy holds against an observation in its channel. -/
def policyAgainst (source : Source) (channel : Channel) : Option JsString :=
  if continuity.superseded channel then some (lit "the peer has replaced its DID")
  else if continuity.blocked channel ≠ [] then some (lit "the channel is denied")
  else inputAgainst inbound source

def eligibilityOf (source : Source) : Eligibility :=
  match readSource source evidence, source.channel with
  | .refused because, _ => .invalid because
  | .missing because, _ => .deferred because
  | .positive, none => .deferred [] -- a positive source is placed in its channel
  | .positive, some channel =>
    match continuity.witness source.event.cid with
    | .conflict because => .refused
        (lit "the continuity its proof establishes is in conflict: " ++ because)
    | .pending because => .deferred because
    | .invalid because => .deferred because
    | .complete =>
      match policyAgainst continuity inbound source channel with
      | some because => .refused because
      | none => .eligible

/-- Does no effective or pending admission name the observation. -/
def unnamed (source : Source) : Bool :=
  (AdmissionFold.of admissions source.event.cid).all fun admission =>
    admission.status matches .invalid _

/-- The observations no effective or pending admission names, in canonical event order, each
with whether it may be admitted now. -/
def foldCandidates : List AdmissionCandidate :=
  Cmp.sortBy (Cmp.comap AdmissionCandidate.source byEvent)
    ((evidence.sources.values.filter (unnamed admissions)).map fun source =>
      ⟨source, eligibilityOf evidence continuity inbound source⟩)

end Dispositions

def VaultFold.candidates (fold : VaultFold) : List AdmissionCandidate :=
  foldCandidates fold.channels fold.continuity fold.admissions fold.inbound

/-- May the candidate be admitted now. -/
def AdmissionCandidate.isEligible (candidate : AdmissionCandidate) : Bool :=
  candidate.eligibility = .eligible

def AdmissionCandidate.messageId (candidate : AdmissionCandidate) : MessageId :=
  candidate.source.event.data.messageId

def AdmissionCandidate.draft (candidate : AdmissionCandidate) : MessageAdmitted where
  sourceEventCid := candidate.source.event.cid

/-- The admissions one round records: of each input, the first candidate in canonical event
order that may be admitted now. -/
def admissionDrafts (fold : VaultFold) : List MessageAdmitted :=
  (Rounds.firsts AdmissionCandidate.isEligible AdmissionCandidate.messageId [] fold.candidates).map
    AdmissionCandidate.draft

/-- The admission of the first of all that may be admitted now. -/
def firstDraft (fold : VaultFold) : List MessageAdmitted :=
  ((fold.candidates.find? AdmissionCandidate.isEligible).map AdmissionCandidate.draft).toList

/-! ## The pass -/

/-- The drafts of a round among those drafted before, none of which is drafted again. -/
def drafting (drafted : List EventCid) : List MessageAdmitted → Except JsString (List EventCid)
  | [] => .ok drafted
  | draft :: rest =>
    if draft.sourceEventCid ∈ drafted then .error (lit "the admission of " ++ draft.sourceEventCid ++
      lit " was recorded and did not take effect")
    else drafting (drafted ++ [draft.sourceEventCid]) rest

section Pass

variable (O : Outside) (checks : VaultChecks) (effectTypes : List JsString)

/-- The set a pass leaves, and what it committed. -/
structure Admitted where
  set : VaultEventSet
  events : List MessageAdmitted

/-- Rounds of drafts, each committed and folded again, until none is left; none if the fuel runs
out first. -/
def admitWith (draft : VaultFold → List MessageAdmitted)
    (commit : VaultEventSet → List VaultData → VaultEventSet) :
    Nat → VaultEventSet → List EventCid → List MessageAdmitted → Option (Except JsString Admitted)
  | 0, _, _, _ => none
  | fuel + 1, set, drafted, events =>
    match draft (foldVault O set checks effectTypes) with
    | [] => some (.ok ⟨set, events⟩)
    | drafts =>
      match drafting drafted drafts with
      | .error because => some (.error because)
      | .ok drafted => admitWith draft commit fuel (commit set (drafts.map VaultData.messageAdmitted))
          drafted (events ++ drafts)

/-- The pass under a lock already held, from what the vault has. -/
def admitReceipts (commit : VaultEventSet → List VaultData → VaultEventSet) (fuel : Nat)
    (set : VaultEventSet) : Option (Except JsString Admitted) :=
  admitWith O checks effectTypes admissionDrafts commit fuel set [] []

/-- Admitting the first of all that may be admitted, and folding again. -/
def admitSingly (commit : VaultEventSet → List VaultData → VaultEventSet) (fuel : Nat)
    (set : VaultEventSet) : Option (Except JsString Admitted) :=
  admitWith O checks effectTypes firstDraft commit fuel set [] []

/-- What is committed when a crash ends the pass after some rounds. -/
def afterRounds (commit : VaultEventSet → List VaultData → VaultEventSet) :
    Nat → VaultEventSet → VaultEventSet
  | 0, set => set
  | rounds + 1, set =>
    match admissionDrafts (foldVault O set checks effectTypes) with
    | [] => set
    | drafts => afterRounds commit rounds (commit set (drafts.map VaultData.messageAdmitted))

end Pass

end Estoc.Vault
