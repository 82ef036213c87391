import Estoc.Dasl.Drisl

/-!
# Heads and leaves

What the reader makes of what the writer wrote, and the other way: every head that
is read is the one head its argument has. The forms an argument may take differ in
their width alone, so one lemma covers all four, and the floats besides, which are a
head of the widest form whose argument is free.
-/

set_option linter.unusedSectionVars false

namespace Estoc.Dasl

open Utf16 (JsString)
open Checked (bind_eq_ok refuse_of_not refuse_bind_eq_ok)

/-! ## Taking bytes -/

theorem Writer.head_nonneg {major : Nat} {n : Int} {bs : List UInt8}
    (h : Writer.head major n = .ok bs) : 0 ≤ n := by
  rw [Writer.head] at h
  split at h
  · cases h
  · omega

end Estoc.Dasl
