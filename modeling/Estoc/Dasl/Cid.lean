import Mathlib.Data.Bool.AllAny
import Mathlib.Data.List.Lex
import Mathlib.Order.Compare
import Estoc.Lib.Base32
import Estoc.Lib.Bytes
import Estoc.Lib.Checked
import Estoc.Lib.Cmp

/-!
# DASL CIDs

A CID of version 1 with the hash sha-256 and one of two codecs: exactly 36 bytes.
A value of `DaslCid` has that form, so nothing that holds one checks it again.
-/

set_option linter.unusedSectionVars false

namespace Estoc.Dasl

open Utf16 (JsString)
open Checked (refuse refuse_of_not refuse_bind_eq_ok bind_eq_ok)

def RAW_CODE : UInt8 := 0x55
def DRISL_CODE : UInt8 := 0x71
def SHA256_CODE : UInt8 := 0x12
def DIGEST_LENGTH : Nat := 32
def CID_LENGTH : Nat := 36

/-- The binary form: version, codec, hash, digest length, digest. -/
structure CidBytes (bytes : List UInt8) : Prop where
  length : bytes.length = CID_LENGTH
  version : bytes[0]? = some 1
  codec : bytes[1]? = some RAW_CODE ∨ bytes[1]? = some DRISL_CODE
  hash : bytes[2]? = some SHA256_CODE
  digestLength : bytes[3]? = some (UInt8.ofNat DIGEST_LENGTH)

/-- A DASL CID, decoded. -/
structure DaslCid where
  bytes : List UInt8
  form : CidBytes bytes

instance : DecidableEq DaslCid := fun a b =>
  decidable_of_iff (a.bytes = b.bytes) (by cases a; cases b; simp)

def DaslCid.code (cid : DaslCid) : UInt8 := cid.bytes.getD 1 0

def DaslCid.digest (cid : DaslCid) : List UInt8 := cid.bytes.drop 4

/-- Decode the 36-byte binary form; an error unless it is exactly a DASL CID. -/
def cidFromBytes (bytes : List UInt8) : Except String DaslCid :=
  if hlength : bytes.length ≠ CID_LENGTH then
    .error s!"a DASL CID is {CID_LENGTH} bytes, not {bytes.length}"
  else if hversion : bytes[0]? ≠ some 1 then
    .error s!"CID version {bytes.getD 0 0} is not 1"
  else if hcodec : bytes[1]? ≠ some RAW_CODE ∧ bytes[1]? ≠ some DRISL_CODE then
    .error ("CID codec 0x" ++ String.ofList (Nat.toDigits 16 (bytes.getD 1 0).toNat) ++
      " is neither raw nor drisl")
  else if hhash : bytes[2]? ≠ some SHA256_CODE then .error "CID hash is not sha-256"
  else if hdigest : bytes[3]? ≠ some (UInt8.ofNat DIGEST_LENGTH) then
    .error "CID digest is not 32 bytes"
  else
    .ok ⟨bytes, by tauto, by tauto, by tauto, by tauto, by tauto⟩

theorem cidFromBytes_bytes (cid : DaslCid) : cidFromBytes cid.bytes = .ok cid := by
  obtain ⟨bytes, h⟩ := cid
  have hcodec : ¬ (bytes[1]? ≠ some RAW_CODE ∧ bytes[1]? ≠ some DRISL_CODE) := by
    rcases h.codec with h | h <;> simp [h]
  rw [cidFromBytes, dif_neg (not_not.mpr h.length), dif_neg (not_not.mpr h.version),
    dif_neg hcodec, dif_neg (not_not.mpr h.hash), dif_neg (not_not.mpr h.digestLength)]

/-- `b` and the base 32 of the bytes. -/
def DaslCid.text (cid : DaslCid) : JsString := 0x62 :: Base32.encode cid.bytes

/-- The bytes of a text in the one spelling they have. -/
def base32Decode (text : JsString) : Except String (List UInt8) :=
  match Base32.decode text with
  | none => .error "not base32 lower: Non-base32 character"
  | some bytes => do
    refuse (Base32.encode bytes ≠ text) "not base32 lower: not the canonical spelling"
    pure bytes

/-- Parse the string form; an error unless it is a DASL CID in its one spelling. -/
def parseCid (text : JsString) : Except String DaslCid := do
  refuse (text.head? ≠ some 0x62) "a DASL CID starts with the base32 lower prefix b"
  let bytes ← base32Decode (text.drop 1)
  let cid ← cidFromBytes bytes
  refuse (cid.text ≠ text) "CID is not in canonical base32 lower form"
  pure cid

/-- The codec of a DASL CID string, or none if it is not one. -/
def codecOf (text : JsString) : Option UInt8 :=
  match parseCid text with
  | .ok cid => some cid.code
  | .error _ => none

theorem parseCid_text (cid : DaslCid) : parseCid cid.text = .ok cid := by
  have hdecode : base32Decode (cid.text.drop 1) = .ok cid.bytes := by
    rw [DaslCid.text, List.drop_succ_cons, List.drop_zero, base32Decode, Base32.decode_encode]
    simp only
    rw [refuse_of_not (by simp)]
    rfl
  rw [parseCid, refuse_of_not (by simp [DaslCid.text]), Checked.ok_bind, hdecode,
    Checked.ok_bind, cidFromBytes_bytes, Checked.ok_bind, refuse_of_not (by simp)]
  rfl

theorem parseCid_eq_ok {text : JsString} {cid : DaslCid} (h : parseCid text = .ok cid) :
    cid.text = text := by
  rw [parseCid, refuse_bind_eq_ok, bind_eq_ok] at h
  obtain ⟨_, _, _, h⟩ := h
  rw [bind_eq_ok] at h
  obtain ⟨_, _, h⟩ := h
  rw [refuse_bind_eq_ok] at h
  obtain ⟨htext, h⟩ := h
  cases h
  exact not_not.mp htext

/-- A CID's text is of letters and digits. -/
theorem DaslCid.ascii_text (cid : DaslCid) : ∀ u ∈ cid.text, 0x30 ≤ u.toNat ∧ u.toNat < 0x80 := by
  have halphabet : ∀ u ∈ Base32.alphabet, 0x30 ≤ u.toNat ∧ u.toNat < 0x80 :=
    List.all_iff_forall_prop.mp (by decide)
  rw [DaslCid.text]
  refine List.forall_mem_cons.mpr ⟨by decide, fun u hu => ?_⟩
  exact halphabet u (Base32.mem_alphabet_of_mem_encode hu)

/-! ## Order -/

/-- Bytewise lexicographic order of two byte strings, a proper prefix first. -/
def compareBytes (a b : List UInt8) : Ordering := List.compareLex compare a b

instance : Std.TransCmp compareBytes :=
  inferInstanceAs (Std.TransCmp (List.compareLex compare))

instance : Std.LawfulEqCmp compareBytes :=
  inferInstanceAs (Std.LawfulEqCmp (List.compareLex compare))

end Estoc.Dasl
