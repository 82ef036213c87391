import Mathlib.Algebra.Group.Nat.Defs
import Mathlib.Data.List.Induction
import Mathlib.Data.Nat.Basic

/-!
# Byte arrays

Arrays of bytes, whose length is a whole number below 2^53 however they were made,
and numbers as a fixed count of bytes, most significant first.
-/

/-- An array of bytes: no length from 2^53 on can be made. -/
structure Uint8Array where
  bytes : List UInt8
  length_lt : bytes.length < 2 ^ 53
deriving DecidableEq

def Uint8Array.length (a : Uint8Array) : Nat := a.bytes.length

/-- A new array of some bytes, or the error for a length no array has. -/
def newUint8Array (bytes : List UInt8) : Except String Uint8Array :=
  if h : bytes.length < 2 ^ 53 then .ok ⟨bytes, h⟩
  else .error s!"Invalid typed array length: {bytes.length}"

theorem newUint8Array_of_lt {bytes : List UInt8} (h : bytes.length < 2 ^ 53) :
    newUint8Array bytes = .ok ⟨bytes, h⟩ := dif_pos h

theorem newUint8Array_eq_ok {bytes : List UInt8} {a : Uint8Array}
    (h : newUint8Array bytes = .ok a) : a.bytes = bytes := by
  rw [newUint8Array] at h
  split at h
  · cases h; rfl
  · cases h

namespace BigEndian

/-- The number some bytes are. -/
def value (bytes : List UInt8) : Nat := bytes.foldl (fun n b => n * 256 + b.toNat) 0

/-- The last `width` bytes of a number. -/
def bytes : (width n : Nat) → List UInt8
  | 0, _ => []
  | width + 1, n => bytes width (n / 256) ++ [UInt8.ofNat (n % 256)]

end BigEndian
