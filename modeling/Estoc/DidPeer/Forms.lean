import Estoc.Lib.Checked
import Estoc.Lib.Json

/-!
# The forms of a did:peer:4

The short form is the hash of a document, the long form the short form and the document
itself behind a colon. Which of the two a text is, is told from its spelling alone.
-/

set_option linter.unusedSectionVars false

namespace Estoc.DidPeer

open Json (lit)
open Utf16 (JsString)
open Checked (refuse)

def B58 : JsString := lit "123456789ABCDEFGHJKLMNPQRSTUVWXYZabcdefghijkmnopqrstuvwxyz"

def isB58 (u : UInt16) : Bool := B58.contains u

/-- What every did:peer:4 starts with. -/
def prefix4 : JsString := lit "did:peer:4zQm"

/-- The prefix and 44 letters. -/
def isShortForm (did : JsString) : Bool :=
  prefix4.isPrefixOf did && (did.drop 13).length == 44 && (did.drop 13).all isB58

/-- A short form, `:z` and six letters or more. -/
def isLongForm (did : JsString) : Bool :=
  isShortForm (did.take 57) && (did.drop 57).take 2 == lit ":z" && 6 ≤ (did.drop 59).length &&
    (did.drop 59).all isB58

/-- What stands before the last colon. -/
def longToShort (did : JsString) : Except JsString JsString := do
  refuse (isLongForm did = false) (lit "DID is not a long form did:peer:4")
  pure ((did.reverse.dropWhile (· != Json.colon)).drop 1).reverse

/-- The short form of a long form; another text is its own. -/
def shortOf (did : JsString) : JsString :=
  match longToShort did with
  | .ok short => short
  | .error _ => did

/-- A long form and the short form cut from it. -/
structure Spelled (short long : JsString) : Prop where
  short_form : isLongForm short = false
  long_form : isLongForm long = true
  cut : shortOf long = short

theorem shortOf_of_not {did : JsString} (h : isLongForm did = false) : shortOf did = did := by
  rw [shortOf, longToShort, Checked.refuse, if_pos h]
  rfl

theorem ne_colon_of_b58 {u : UInt16} (h : isB58 u = true) : u ≠ Json.colon := by
  rintro rfl
  exact absurd h (by decide)

theorem isShortForm_take {did : JsString} (h : isLongForm did = true) :
    isShortForm (did.take 57) = true := by
  simp only [isLongForm, Bool.and_eq_true] at h
  exact h.1.1.1

/-- What stands before the last colon of a long form is its first 57 units. -/
theorem longToShort_eq {did : JsString} (h : isLongForm did = true) :
    longToShort did = .ok (did.take 57) := by
  have hform := h
  simp only [isLongForm, Bool.and_eq_true, beq_iff_eq, List.all_eq_true] at hform
  obtain ⟨⟨⟨-, hmark⟩, -⟩, hrest⟩ := hform
  have htail : did.drop 57 = Json.colon :: 0x7A :: did.drop 59 := by
    have hmark' : (did.drop 57).take 2 = [Json.colon, 0x7A] := hmark.trans (by decide)
    rw [← List.take_append_drop 2 (did.drop 57), hmark', List.drop_drop]
    rfl
  have hplain : ∀ u ∈ (0x7A :: did.drop 59).reverse, (u != Json.colon) = true := by
    intro u hu
    obtain rfl | hu := List.mem_cons.mp (List.mem_reverse.mp hu)
    · decide
    · simpa using ne_colon_of_b58 (hrest u hu)
  have hsplit : did.reverse =
      (0x7A :: did.drop 59).reverse ++ Json.colon :: (did.take 57).reverse := by
    conv_lhs => rw [← List.take_append_drop 57 did, htail]
    simp
  rw [longToShort, Checked.refuse_of_not (by simp [h])]
  simp only [Checked.ok_bind, hsplit]
  rw [List.dropWhile_append_of_pos hplain]
  simp

theorem isShortForm_of_longToShort {did short : JsString} (h : longToShort did = .ok short) :
    isShortForm short = true := by
  have hlong : isLongForm did = true := by
    simpa using (Checked.refuse_bind_eq_ok.mp h).1
  rw [longToShort_eq hlong] at h
  cases h
  exact isShortForm_take hlong

end Estoc.DidPeer
