import Estoc.Vault.Outbound

/-!
# The whole fold

Every fold over one event set, each fed the ones it reads, and what the vault must keep: each
accepted event with each root it still retains. A message's erasures release roots of that
message's events, and the envelopes of a message are released all at once when it is submitted
or terminal. Release is edge by edge, so what another event still names stays held.
-/

set_option linter.unusedSectionVars false

namespace Estoc.Vault

open Utf16 (JsString)

/-- One edge of retention: an event and a root it keeps. -/
structure Retained where
  cid : EventCid
  root : Cid
deriving DecidableEq

def compareRetained (a b : Retained) : Ordering :=
  (Json.compareUnits a.cid b.cid).then (Json.compareUnits a.root b.root)

section Held

variable (set : VaultEventSet) (erasures : Erasures) (released : List MessageId)

/-- The roots an event read against its schema still retains. -/
def rootsKept (event : VaultEvent VaultData) : List Cid :=
  match event.data with
  | .messagePrepared data =>
    if released.contains data.messageId then []
    else event.event.roots.filter fun root => !erased erasures data.messageId root
  | .messageOut data => event.event.roots.filter fun root => !erased erasures data.messageId root
  | .messageIn data => event.event.roots.filter fun root => !erased erasures data.messageId root
  | _ => event.event.roots

/-- The retention the set holds, edge by edge. -/
def retainedRoots : List Retained :=
  Cmp.sortBy compareRetained
    (set.kept.flatMap (fun event => event.roots.map (Retained.mk event.cid)) ++
      set.read.flatMap fun event =>
        (rootsKept erasures released event).map (Retained.mk event.cid))

/-- Every root the set holds: what collection must keep. -/
def heldRoots : List Cid := OMap.once ((retainedRoots set erasures released).map Retained.root)

end Held

structure VaultFold where
  mediations : MediationFold
  dids : DidFold
  channels : ChannelEvidence
  continuity : Continuity
  admissions : AdmissionFold
  inbound : InboundFold
  outbound : OutboundFold
  erasures : Erasures
  /-- Each accepted event with each root it still retains. -/
  retained : List Retained
  /-- The roots it holds: what collection keeps. -/
  held : List Cid

def foldVault (O : Outside) (set : VaultEventSet) (checks : VaultChecks)
    (effectTypes : List JsString) : VaultFold :=
  let mediations := foldMediations set checks.mediationKeys
  let dids := foldDids O set mediations checks.didKeys
  let channels := foldChannelEvidence O set dids checks
  let admissions := foldAdmissions set channels
  let continuity := foldContinuity O set channels
  let erasures := foldErasures set
  let inbound := foldInbound O channels continuity admissions erasures
  let outbound := foldOutbound O set dids channels continuity inbound erasures
    checks.resolutionChecks effectTypes
  { mediations, dids, channels, continuity, admissions, inbound, outbound, erasures
    retained := retainedRoots set erasures outbound.released
    held := heldRoots set erasures outbound.released }

section Lookup

variable (O : Outside) (set : VaultEventSet) (checks : VaultChecks) (effectTypes : List JsString)

/-- What every message of the whole fold is judged against. -/
def vaultShared : Shared :=
  let fold := foldVault O set checks effectTypes
  sharedOf O set fold.dids fold.channels fold.continuity fold.inbound fold.erasures
    checks.resolutionChecks effectTypes

variable {O set checks effectTypes}

theorem foldVault_get? {messageId : MessageId} {outbound : Outbound} :
    (foldVault O set checks effectTypes).outbound.outbounds.get? messageId = some outbound ↔
    ∃ first rest, (set.of messageOut).filter (·.data.messageId = messageId) = first :: rest ∧
      outbound = outboundOf (vaultShared O set checks effectTypes)
        (foldVault O set checks effectTypes).outbound.skips messageId first rest
        (recordsOf set (foldVault O set checks effectTypes).channels
          (foldVault O set checks effectTypes).inbound messageId) :=
  foldOutbound_get?

theorem foldVault_released {messageId : MessageId}
    (h : messageId ∈ (foldVault O set checks effectTypes).outbound.released) :
    ∃ outbound, (foldVault O set checks effectTypes).outbound.outbounds.get? messageId =
      some outbound ∧ outbound.released = true :=
  mem_released rfl h

end Lookup

end Estoc.Vault
