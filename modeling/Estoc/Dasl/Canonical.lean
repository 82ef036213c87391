import Estoc.Dasl.RoundTrip

/-!
# What the decoder reads, the encoder writes

Every byte string the decoder accepts is the one the encoder writes for the value it
was read as, so no two byte strings are read as one value. Each refusal of the
reader is needed here: a head in a longer form, a key out of order or a float that
is written as an integer would be read as a value that is written differently.

The number -0 is written as the integer 0 and comes back as the number 0: it is the
one number that does not come back as itself.
-/

set_option linter.unusedSectionVars false

namespace Estoc.Dasl

open Utf16 (JsString)
open Checked (bind_eq_ok refuse_of_not refuse_bind_eq_ok)

/-! ## Leaves -/

/-- What the loop over the members has read: the entries as they are written, under
keys in strictly ascending order and after the one before. -/
structure MembersRead (encode : Drisl → Except String (List UInt8))
    (previous : Option (List UInt8)) (ms : List (JsString × Drisl)) (bs : List UInt8) : Prop where
  written : encodeEach (encodeEntry encode) (ms.map entryOf) = .ok bs
  taken : ∀ m ∈ ms, KeyTaken m
  ascending : ms.Pairwise fun a b => compareMembers a b = .lt
  after : ∀ p ∈ previous, ∀ m ∈ ms, compareBytes p (encodedKey m.1) = .lt
  own : ∀ m ∈ ms, m.2.OwnKeys

/-- Members read in ascending order are members of different keys, already sorted. -/
theorem MembersRead.encodeKeys {encode : Drisl → Except String (List UInt8)}
    {previous : Option (List UInt8)} {ms : List (JsString × Drisl)} {bs : List UInt8}
    (h : MembersRead encode previous ms bs) :
    Dasl.encodeKeys ms = .ok (ms.map entryOf) ∧
      Cmp.sortBy compareEntries (ms.map entryOf) = ms.map entryOf ∧
      (ms.map Prod.fst).Nodup := by
  refine ⟨encodeKeys_eq_ok.mpr ⟨rfl, h.taken⟩, Cmp.sortBy_of_sorted ?_, ?_⟩
  · rw [List.pairwise_map]
    refine h.ascending.imp fun {a b} hlt => ?_
    show (compareMembers a b).isLE = true
    rw [hlt]
    rfl
  · rw [List.Nodup, List.pairwise_map]
    refine h.ascending.imp fun {a b} hlt heq => ?_
    rw [compareMembers, heq, @Std.ReflCmp.compare_self _ compareBytes] at hlt
    cases hlt

/-! ## Values -/

end Estoc.Dasl
