import Mathlib.Data.Bool.AllAny
import Estoc.DidPeer.Forms
import Estoc.Vault.Events

/-!
# Identifiers and channels

The spellings of a DID, the channel a local and a peer DID form, the spelling wire IDs are
compared by, and the identifiers a rule derives rather than mints. A derivation is of its
transcript: what the digest of one is, is for `derive` to say.
-/

set_option linter.unusedSectionVars false

namespace Estoc.Vault

open Json (lit)
open Utf16 (JsString)
open DidPeer (isShortForm isLongForm longToShort isB58)

/-! ## DIDs -/

def isLower (u : UInt16) : Bool := 0x61 ≤ u.toNat && u.toNat ≤ 0x7A

def isUpper (u : UInt16) : Bool := 0x41 ≤ u.toNat && u.toNat ≤ 0x5A

def isHex (u : UInt16) : Bool :=
  Json.isDigit u || (0x41 ≤ u.toNat && u.toNat ≤ 0x46) || (0x61 ≤ u.toNat && u.toNat ≤ 0x66)

/-- A letter, a digit or one of `._-`. -/
def isIdChar (u : UInt16) : Bool :=
  isLower u || isUpper u || Json.isDigit u || u == 0x2E || u == 0x5F || u == 0x2D

/-- Segments between colons, of characters and escapes, the last of them not empty;
`filled` says whether something stands in the segment being read. -/
def isMethodId (filled : Bool) : JsString → Bool
  | [] => filled
  | [u] => isIdChar u
  | [u, v] => if u == Json.colon then isIdChar v else isIdChar u && isIdChar v
  | u :: v :: w :: rest =>
    if u == 0x25 then isHex v && isHex w && isMethodId true rest
    else if u == Json.colon then isMethodId false (v :: w :: rest)
    else isIdChar u && isMethodId true (v :: w :: rest)

/-- The DID Core grammar, exactly as written. -/
def isDid (value : JsString) : Bool :=
  let rest := (value.drop 4).dropWhile fun u => isLower u || Json.isDigit u
  (lit "did:").isPrefixOf value && rest.length < (value.drop 4).length &&
    rest.head? == some Json.colon && isMethodId false (rest.drop 1)

/-- What holds of every character of an identifier and of a base58 text alike. -/
def IsPlain (u : UInt16) : Prop := isIdChar u = true ∧ (u == 0x25) = false ∧ (u == Json.colon) = false

theorem isMethodId_of_plain : {filled : Bool} → {s : JsString} → (h : ∀ u ∈ s, IsPlain u) →
    (hfilled : s = [] → filled = true) → isMethodId filled s = true
  | filled, [], _, hfilled => by rw [isMethodId, hfilled rfl]
  | _, [u], h, _ => by rw [isMethodId, (h u List.mem_cons_self).1]
  | _, [u, v], h, _ => by
    have hu := h u List.mem_cons_self
    have hv := h v (List.mem_cons_of_mem _ List.mem_cons_self)
    rw [isMethodId, hu.2.2, hu.1, hv.1]
    rfl
  | _, u :: v :: w :: rest, h, _ => by
    have hu := h u List.mem_cons_self
    rw [isMethodId, hu.2.1, hu.2.2, hu.1]
    simp only [Bool.false_eq_true, if_false, Bool.true_and]
    exact isMethodId_of_plain (fun x hx => h x (List.mem_cons_of_mem _ hx)) fun hnil => by cases hnil

theorem plain_of_b58 {u : UInt16} (h : isB58 u = true) : IsPlain u := by
  have hall : ∀ v ∈ DidPeer.B58, isIdChar v = true ∧ (v == 0x25) = false ∧ (v == Json.colon) = false :=
    List.all_iff_forall_prop.mp (by decide)
  exact hall u (by simpa [isB58] using h)

/-- A short form is a DID. -/
theorem isDid_of_shortForm {did : Did} (h : isShortForm did = true) : isDid did = true := by
  simp only [isShortForm, Bool.and_eq_true, List.isPrefixOf_iff_prefix, beq_iff_eq,
    List.all_eq_true] at h
  obtain ⟨⟨⟨rest, rfl⟩, -⟩, hrest⟩ := h
  have hpre : DidPeer.prefix4 = [0x64, 0x69, 0x64, 0x3A, 0x70, 0x65, 0x65, 0x72, 0x3A, 0x34, 0x7A,
    0x51, 0x6D] := by decide
  rw [hpre] at hrest ⊢
  have hplain : ∀ u ∈ (0x34 : UInt16) :: 0x7A :: 0x51 :: 0x6D :: rest, IsPlain u := by
    simp only [List.forall_mem_cons]
    refine ⟨?_, ?_, ?_, ?_, fun u hu => plain_of_b58 (hrest u hu)⟩ <;>
      exact ⟨by decide, by decide, by decide⟩
  have hmethod : isMethodId false _ = true := isMethodId_of_plain hplain fun hnil => by cases hnil
  have hdid : lit "did:" = [0x64, 0x69, 0x64, 0x3A] := by decide
  unfold isDid
  rw [hdid]
  simp [isLower, Json.isDigit, Json.colon, hmethod]

/-- The one spelling every replica compares by: a did:peer:4 by its short form. -/
def canonicalDid (did : Did) : Did := DidPeer.shortOf did

def sameDid (a b : Did) : Bool := a == b || canonicalDid a == canonicalDid b

/-! ## Wire IDs -/

/-- An ASCII letter in lower case. -/
def lowered (u : UInt16) : UInt16 := if isUpper u then u + 0x20 else u

def canonicalWireId (wireId : JsString) : JsString := wireId.map lowered

/-- Do two wire IDs name one message. -/
def sameWireId (a b : JsString) : Bool := a == b || canonicalWireId a == canonicalWireId b

/-! ## Channels -/

/-- An ordered pair: receiving from the peer at the local DID and sending from it to the
peer are the same channel. -/
structure Channel where
  localDid : Did
  peerDid : Did
deriving DecidableEq

/-- The channel of two DIDs in their canonical spellings, which its callers have found to
differ. -/
def channelOf (localDid peerDid : Did) : Channel := ⟨localDid, peerDid⟩

def sameChannel (a b : Channel) : Bool := a.localDid == b.localDid && a.peerDid == b.peerDid

@[simp] theorem sameChannel_iff {a b : Channel} : sameChannel a b = true ↔ a = b := by
  cases a
  cases b
  simp [sameChannel]

/-! ## Key names -/

inductive DidKeyRole where
  | authentication
  | keyAgreement
deriving DecidableEq

def DidKeyRole.text : DidKeyRole → JsString
  | .authentication => lit "authentication"
  | .keyAgreement => lit "key-agreement"

/-- The name of one of the two keys of an entity. -/
def didKeyName (did : DidId) (role : DidKeyRole) : KeyName :=
  lit "did/" ++ did ++ lit "/" ++ role.text

/-- One entity names each key. -/
theorem didKeyName_inj {a b : DidId} {r s : DidKeyRole} (h : didKeyName a r = didKeyName b s) :
    a = b ∧ r = s := by
  -- the two roles end in different letters
  have hrole : r = s := by
    have hlast := congrArg (fun name => name.reverse.head?) h
    cases r <;> cases s <;> first | rfl | (simp [didKeyName, DidKeyRole.text, lit] at hlast)
  subst hrole
  simp only [didKeyName, List.append_assoc, List.append_cancel_left_eq] at h
  exact ⟨List.append_cancel_right h, rfl⟩

/-! ## Derived IDs -/

/-- What a derived ID is of; each has a namespace of its own. -/
inductive NamespacePurpose where
  | inboundMessage
  | messageExecution
  | automaticMid
deriving DecidableEq

section Derived

variable (derive : NamespacePurpose → Json → JsString)

def text (s : JsString) : Json := .scalar (.string s)

/-- The observation group of an authenticated inbound message: by the canonical sender and
recipient and the canonical wire ID. -/
def inboundMessageId (sender recipient : Did) (wireMessageId : JsString) : MessageId :=
  derive .inboundMessage (.array [text (lit "v3"), text (lit "authenticated"), text sender,
    text recipient, text (canonicalWireId wireMessageId)])

/-- The execution of one carrier in one channel: the peer is the sender, the local DID the
recipient. -/
def executionId (sender recipient : Did) (wireMessageId : JsString) : ExecutionId :=
  derive .messageExecution (.array [text (lit "v4"),
    .object [(lit "sender", text sender), (lit "recipient", text recipient)],
    text (canonicalWireId wireMessageId)])

/-- The message of the one response an effect key names. -/
def automaticMessageId (key : EffectKey) : MessageId :=
  derive .automaticMid (.array [text (lit "v1"), text key])

end Derived

end Estoc.Vault
