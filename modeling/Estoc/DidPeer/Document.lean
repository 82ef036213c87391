import Estoc.DidPeer.LongForm
import Estoc.EventStore.Values
import Estoc.Vault.Ids

/-!
# What a document authorizes

A reference resolves against the document's `id`, an embedded method is defined where it is
listed, and one ID defines one method. The spellings of a DID and of a DID URL are held to
the grammar as they are written.
-/

set_option linter.unusedSectionVars false

namespace Estoc.DidPeer

open Json (lit member setMember)
open Utf16 (JsString)
open Checked (refuse)
open EventStore (decimal)
open Vault (isDid isHex isIdChar)

/-! ## DID URLs -/

/-- A DID URL split at its first path, query or fragment delimiter. -/
def splitDidUrl (url : JsString) : JsString × JsString :=
  let plain := fun u : UInt16 => !(lit "/?#").contains u
  (url.takeWhile plain, url.dropWhile plain)

/-- Characters of a path segment, escapes, and what else is allowed. -/
def arePchars (extra : UInt16 → Bool) : JsString → Bool
  | [] => true
  | u :: rest =>
    if u == 0x25 then
      match rest with
      | v :: w :: rest => isHex v && isHex w && arePchars extra rest
      | _ => false
    else (isIdChar u || (lit "~!$&'()*+,;=:@").contains u || extra u) && arePchars extra rest

def inQuery (u : UInt16) : Bool := (lit "/?").contains u

/-- What may stand behind a DID: a path, a query and a fragment. -/
def isPathQueryFragment (rest : JsString) : Bool :=
  let inPath := fun u : UInt16 => !(lit "?#").contains u
  let path := rest.takeWhile inPath
  let behind := rest.dropWhile inPath
  let query := if behind.head? == some 0x3F then behind.tail.takeWhile (· != 0x23) else []
  let fragment := if behind.head? == some 0x3F then behind.tail.dropWhile (· != 0x23) else behind
  (path.isEmpty || path.head? == some 0x2F) && arePchars (· == 0x2F) path &&
    arePchars inQuery query && arePchars inQuery (fragment.drop 1)

def isDidUrl (value : JsString) : Bool :=
  isDid (splitDidUrl value).1 && isPathQueryFragment (splitDidUrl value).2

/-! ## Methods -/

def documentId (document : Members) : Except JsString JsString :=
  match member document (lit "id") with
  | some (.scalar (.string id)) => do
    refuse (isDid id = false) (lit "the document id is a DID")
    pure id
  | _ => .error (lit "the document id is a DID")

def resolved (reference base : JsString) : JsString :=
  if reference.head? == some 0x23 || reference.head? == some 0x3F then base ++ reference
  else reference

/-- A method reference as the document authorizes it. -/
def absolute (reference : Option Json) (base at_ : JsString) : Except JsString JsString :=
  match reference with
  | some (.scalar (.string reference)) => do
    let url := resolved reference base
    refuse (isDidUrl url = false) (at_ ++ lit " is a DID URL or a fragment reference: " ++
      EventStore.JsValue.quote reference)
    pure url
  | _ => .error (at_ ++ lit " is a DID URL")

def entriesOf (document : Members) (name : JsString) : Except JsString (List Json) :=
  match member document name with
  | none => pure []
  | some (.array entries) => pure entries
  | some _ => .error (name ++ lit " is an array")

/-- Where an entry stands. -/
def entryAt (name : JsString) (i : Nat) : JsString := name ++ lit "[" ++ decimal i ++ lit "]"

section
variable (P : Packages)

/-- A definition's text, to compare it with another under its ID. -/
def comparable (id : JsString) (definition : Members) : Except JsString JsString :=
  match P.serialize (.object definition) with
  | .ok text => pure text
  | .error message => .error (id ++ lit " is defined twice, with a value that has no RFC 8785 form: "
    ++ message)

def define (base : JsString) (methods : OMap JsString Members) (entry : Members) (at_ : JsString) :
    Except JsString (OMap JsString Members) := do
  let id ← absolute (member entry (lit "id")) base (at_ ++ lit ".id")
  let definition := setMember entry (lit "id") (.scalar (.string id))
  match methods.get? id with
  | none => pure (methods.set id definition)
  | some known => do
    let knownText ← comparable P id known
    let text ← comparable P id definition
    refuse (knownText ≠ text) (lit "two different verification methods are " ++ id)
    pure methods

/-- The methods that some entries define, each in its place; `embedded` says whether an entry
may be a reference instead. -/
def defineAll (base name : JsString) (embedded : Bool) :
    (entries : List Json) → (i : Nat) → OMap JsString Members → Except JsString (OMap JsString Members)
  | [], _, methods => pure methods
  | entry :: entries, i, methods => do
    let methods ← match entry with
      | .object entry => define P base methods entry (entryAt name i)
      | _ => if embedded then pure methods else .error (entryAt name i ++ lit " is an object")
    defineAll base name embedded entries (i + 1) methods

/-- Every method the document defines, by its ID. -/
def definedMethods (document : Members) : Except JsString (OMap JsString Members) := do
  let base ← documentId document
  let methods ← defineAll P base (lit "verificationMethod") false
    (← entriesOf document (lit "verificationMethod")) 0 OMap.empty
  VERIFICATION_RELATIONSHIPS.foldlM (fun methods relationship => do
    defineAll P base relationship true (← entriesOf document relationship) 0 methods) methods

/-- The method an entry of a relationship authorizes. -/
def authorizedId (base : JsString) (defined : OMap JsString Members) (at_ : JsString) :
    Json → Except JsString JsString
  | .scalar (.string reference) => do
    let id ← absolute (some (.scalar (.string reference))) base at_
    refuse ((splitDidUrl id).1 = base ∧ defined.has id = false)
      (at_ ++ lit " references no verification method: " ++ id)
    pure id
  | .object entry => absolute (member entry (lit "id")) base (at_ ++ lit ".id")
  | _ => .error (at_ ++ lit " is a reference or an embedded verification method")

def authorizedIds (base name : JsString) (defined : OMap JsString Members) :
    (entries : List Json) → (i : Nat) → Except JsString (List JsString)
  | [], _ => pure []
  | entry :: entries, i => do
    let id ← authorizedId base defined (entryAt name i) entry
    let ids ← authorizedIds base name defined entries (i + 1)
    pure (id :: ids)

/-- The methods a relationship authorizes, each once. -/
def authorizedMethodIds (document : Members) (relationship : JsString) :
    Except JsString (List JsString) := do
  let base ← documentId document
  let defined ← definedMethods P document
  let ids ← authorizedIds base relationship defined (← entriesOf document relationship) 0
  pure (OMap.once ids)

/-- The method the document defines under an ID. -/
def definedMethod (document : Members) (id : JsString) : Except JsString Members := do
  let methods ← definedMethods P document
  match methods.get? id with
  | some method => pure method
  | none => .error (lit "the document defines no verification method " ++ id)

end

end Estoc.DidPeer
