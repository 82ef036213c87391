import Estoc.Dasl.Heads

/-!
# What the encoder writes, the decoder reads

Reading what was written for a value gives the value back up to what
`Drisl.comesBack` says, with whatever bytes follow left unread. The induction is on
the room for nesting, which both directions count the same way: a value the encoder
had room for is one the decoder has room for. Lengths are bounded by the bytes they
are written in, so the array that holds the document bounds them all.
-/

set_option linter.unusedSectionVars false

namespace Estoc.Dasl

open Utf16 (JsString)
open Checked (bind_eq_ok refuse_of_not refuse_bind_eq_ok)

/-! ## What comes back -/

/-- A key as the encoder writes it. -/
def encodedKey (key : JsString) : List UInt8 :=
  match encodeText key with
  | .ok text => text
  | .error _ => []

/-- The canonical order of an object's members. -/
def compareMembers (a b : JsString × Drisl) : Ordering :=
  compareBytes (encodedKey a.1) (encodedKey b.1)

section
variable (number : Binary64 → Binary64)

mutual

/-- A value as it comes back from its bytes: a bigint in the safe range as a number,
a `Float` over no safe integer as a number, the members of an object in canonical
order, and a number as `number` says. -/
def Drisl.comesBack : Drisl → Drisl
  | .null => .null
  | .boolean b => .boolean b
  | .number x => .number (number x)
  | .bigint i => Reader.integer i
  | .string s => .string s
  | .bytes b => .bytes b
  | .link cid => .link cid
  | .float f => if f.value.safeInteger?.isSome then .float f else .number f.value
  | .array items => .array (comeBack items)
  | .object members => .object (Cmp.sortBy compareMembers (membersComeBack members))

def comeBack : List Drisl → List Drisl
  | [] => []
  | v :: vs => v.comesBack :: comeBack vs

def membersComeBack : List (JsString × Drisl) → List (JsString × Drisl)
  | [] => []
  | (key, v) :: ms => (key, v.comesBack) :: membersComeBack ms

end

end

/-! ## Keys -/

/-- The key is one the encoder takes, in an array of its own. -/
def KeyTaken (m : JsString × Drisl) : Prop :=
  encodeText m.1 = .ok (encodedKey m.1) ∧ (encodedKey m.1).length < 2 ^ 53

/-- A member with its key encoded. -/
def entryOf (m : JsString × Drisl) : List UInt8 × Drisl := (encodedKey m.1, m.2)

theorem encodedKey_of_ok {key : JsString} {bs : List UInt8} (h : encodeText key = .ok bs) :
    encodedKey key = bs := by rw [encodedKey, h]

theorem encodeKeys_eq_ok {ms : List (JsString × Drisl)} {entries : List (List UInt8 × Drisl)} :
    encodeKeys ms = .ok entries ↔ entries = ms.map entryOf ∧ ∀ m ∈ ms, KeyTaken m := by
  induction ms generalizing entries with
  | nil =>
      constructor
      · intro h; cases h; exact ⟨rfl, fun m hm => by cases hm⟩
      · rintro ⟨rfl, -⟩; rfl
  | cons m ms ih =>
      obtain ⟨key, v⟩ := m
      rw [encodeKeys, bind_eq_ok, List.forall_mem_cons]
      constructor
      · rintro ⟨text, htext, h⟩
        rw [bind_eq_ok] at h
        obtain ⟨kw, hkw, h⟩ := h
        rw [bind_eq_ok] at h
        obtain ⟨entries', he, h⟩ := h
        cases h
        obtain ⟨rfl, hall⟩ := ih.mp he
        have hkey := encodedKey_of_ok htext
        have hbytes := newUint8Array_eq_ok hkw
        refine ⟨by rw [List.map_cons, entryOf, hkey, hbytes], ⟨by rw [hkey]; exact htext, ?_⟩, hall⟩
        rw [hkey, ← hbytes]
        exact kw.length_lt
      · rintro ⟨rfl, ⟨htext, hlt⟩, hall⟩
        refine ⟨_, htext, ?_⟩
        rw [newUint8Array_of_lt hlt, Checked.ok_bind, ih.mpr ⟨rfl, hall⟩]
        rfl

end Estoc.Dasl
