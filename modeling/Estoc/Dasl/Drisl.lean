import Estoc.Dasl.Cid
import Estoc.Lib.Binary64
import Estoc.Lib.Checked
import Estoc.Lib.Utf16

/-!
# DRISL

Deterministic CBOR with CIDs as tag 42: the data model, the encoder and the strict
decoder. A writer is the bytes it has been given so far, a reader the bytes it has
not read yet, and each call returns what it adds or leaves.

Both directions count how deep they are against the same limit. The model counts
the other way, down from the levels that are left: `room` is one more than
`MAX_DEPTH` less the depth of the source, and there is none left where the source
refuses the nesting. It is also what the recursion is on.
-/

set_option linter.unusedSectionVars false

namespace Estoc.Dasl

open Utf16 (JsString)
open Checked (refuse)

/-- A 64-bit float kept as a float: finite and not the negative zero. -/
structure Float where
  value : Binary64
  finite : value.isFinite = true
  notNegZero : value ≠ .negZero
deriving DecidableEq

/-- The DRISL data model. The members of an object are listed in the order its
keys are, and no two have one key (`Drisl.OwnKeys`). -/
inductive Drisl where
  | null
  | boolean (b : Bool)
  | number (x : Binary64)
  | bigint (i : Int)
  | string (s : JsString)
  | bytes (b : Uint8Array)
  | link (cid : DaslCid)
  | float (f : Float)
  | array (items : List Drisl)
  | object (members : List (JsString × Drisl))

/-- No object in the value has two members of one key. -/
inductive Drisl.OwnKeys : Drisl → Prop where
  | null : OwnKeys .null
  | boolean (b : Bool) : OwnKeys (.boolean b)
  | number (x : Binary64) : OwnKeys (.number x)
  | bigint (i : Int) : OwnKeys (.bigint i)
  | string (s : JsString) : OwnKeys (.string s)
  | bytes (b : Uint8Array) : OwnKeys (.bytes b)
  | link (cid : DaslCid) : OwnKeys (.link cid)
  | float (f : Float) : OwnKeys (.float f)
  | array {items : List Drisl} : (∀ v ∈ items, OwnKeys v) → OwnKeys (.array items)
  | object {members : List (JsString × Drisl)} : (members.map Prod.fst).Nodup →
      (∀ m ∈ members, OwnKeys m.2) → OwnKeys (.object members)

/-- Nesting deeper than this is refused. -/
def MAX_DEPTH : Nat := 64

def tooDeep : String := s!"nesting deeper than {MAX_DEPTH}"

/-! ## Encode -/

/-- The big-endian bytes of a number. -/
def be (v width : Nat) : List UInt8 := BigEndian.bytes width v

/-- A head: the major type and its argument in the shortest form. -/
def Writer.head (major : Nat) (n : Int) : Except String (List UInt8) :=
  let type := major * 32
  let v := n.toNat
  if n < 0 then .error "negative argument"
  else if v < 24 then .ok [UInt8.ofNat (type + v)]
  else if v < 0x100 then .ok (UInt8.ofNat (type + 24) :: be v 1)
  else if v < 0x10000 then .ok (UInt8.ofNat (type + 25) :: be v 2)
  else if v < 0x100000000 then .ok (UInt8.ofNat (type + 26) :: be v 4)
  else if v < 2 ^ 64 then .ok (UInt8.ofNat (type + 27) :: be v 8)
  else .error "integer does not fit in 64 bits"

def encodeText (s : JsString) : Except String (List UInt8) := do
  refuse (Utf16.loneSurrogate s) "text is not well-formed Unicode (lone surrogate)"
  let b ← newUint8Array (Utf16.encodeUtf8 s)
  let head ← Writer.head 3 b.bytes.length
  pure (head ++ b.bytes)

/-- What a loop over values writes. -/
def encodeEach {α : Type} (encode : α → Except String (List UInt8)) :
    List α → Except String (List UInt8)
  | [] => .ok []
  | v :: vs => do
    let b ← encode v
    let bs ← encodeEach encode vs
    pure (b ++ bs)

/-- The members with their keys encoded. -/
def encodeKeys : List (JsString × Drisl) → Except String (List (List UInt8 × Drisl))
  | [] => .ok []
  | (key, v) :: members => do
    let text ← encodeText key
    let kw ← newUint8Array text
    let entries ← encodeKeys members
    pure ((kw.bytes, v) :: entries)

/-- An entry of a map: the encoded key, then the value. -/
def encodeEntry (encode : Drisl → Except String (List UInt8)) (e : List UInt8 × Drisl) :
    Except String (List UInt8) := do
  let value ← encode e.2
  pure (e.1 ++ value)

/-- Entries in the bytewise order of their encoded keys. -/
def compareEntries (a b : List UInt8 × Drisl) : Ordering := compareBytes a.1 b.1

/-- The head of a data item: its major type, its argument, and the five bits that
say how the argument is written. -/
structure Head where
  major : Nat
  arg : Nat
  info : Nat

/-- A number that an array's length may be. -/
def length (arg : Nat) : Except String Nat :=
  if 2 ^ 53 ≤ arg then .error "length beyond 2^53" else .ok arg

/-- The least argument each width may have; a smaller one has a shorter form. -/
def shortestFloor (info : Nat) : Nat :=
  if info = 24 then 24 else if info = 25 then 0x100 else if info = 26 then 0x10000
  else 0x100000000

namespace Reader

def take (n : Nat) (input : List UInt8) : Except String (List UInt8 × List UInt8) :=
  if input.length < n then .error "truncated" else .ok (input.take n, input.drop n)

/-- Read a head, refusing indefinite forms and all but the shortest. -/
def head : List UInt8 → Except String (Head × List UInt8)
  | [] => .error "truncated"
  | first :: rest =>
    let major := first.toNat / 32
    let info := first.toNat % 32
    if info < 24 then .ok (⟨major, info, info⟩, rest)
    else do
      refuse (info = 31) "indefinite length"
      refuse (27 < info) s!"reserved additional information {info}"
      let (argument, rest) ← take (2 ^ (info - 24)) rest
      let arg := BigEndian.value argument
      refuse (major ≠ 7 ∧ arg < shortestFloor info) "integer or length not in shortest form"
      pure (⟨major, arg, info⟩, rest)

/-- The text of some bytes that must be UTF-8. -/
def text (bytes : List UInt8) (error : String) : Except String JsString :=
  match Utf16.decodeUtf8 bytes with
  | some s => .ok s
  | none => .error error

/-- The items of an array, each read by `value`. -/
def items (value : List UInt8 → Except String (Drisl × List UInt8)) :
    Nat → List UInt8 → Except String (List Drisl × List UInt8)
  | 0, input => .ok ([], input)
  | n + 1, input => do
    let (v, input) ← value input
    let (vs, input) ← items value n input
    pure (v :: vs, input)

/-- The members of a map, each value read by `value`; `previous` is the encoded
key before. -/
def members (value : List UInt8 → Except String (Drisl × List UInt8)) :
    Nat → (previous : Option (List UInt8)) → List UInt8 →
      Except String (List (JsString × Drisl) × List UInt8)
  | 0, _, input => .ok ([], input)
  | n + 1, previous, input => do
    let (kh, rest) ← head input
    refuse (kh.major ≠ 3) "map key is not a text string"
    let len ← length kh.arg
    let (kb, rest) ← take len rest
    let encoded := input.take (input.length - rest.length)
    refuse (previous.any fun p => compareBytes p encoded != .lt)
      "map keys not in strictly ascending bytewise order"
    let key ← text kb "map key is not valid UTF-8"
    let (v, rest) ← value rest
    let (ms, rest) ← members value n (some encoded) rest
    pure ((key, v) :: ms, rest)

/-- A simple value or a float: major type 7. -/
def simple (h : Head) : Except String Drisl :=
  if h.info < 24 then
    if h.arg = 20 then .ok (.boolean false)
    else if h.arg = 21 then .ok (.boolean true)
    else if h.arg = 22 then .ok .null
    else .error s!"simple value {h.arg} is not false, true or null"
  else if h.info = 24 then .error "one-byte simple values are not allowed"
  else if h.info ≠ 27 then .error "floats must be 64-bit"
  else
    let f := Binary64.ofBits h.arg
    if hfinite : f.isFinite = true then
      if hzero : f = .negZero then .error "DRISL has no negative zero"
      else if f.safeInteger?.isSome then .ok (.float ⟨f, hfinite, hzero⟩)
      else .ok (.number f)
    else .error "DRISL has no NaN or infinity"

/-- An integer: a number where it is a safe one, else a bigint. -/
def integer (i : Int) : Drisl :=
  if i.natAbs < 2 ^ 53 then .number (Binary64.ofInt i) else .bigint i

/-- The CID in the content of tag 42. -/
def link (input : List UInt8) : Except String (Drisl × List UInt8) := do
  let (ih, rest) ← head input
  refuse (ih.major ≠ 2) "tag 42 content is not a byte string"
  let n ← length ih.arg
  let (b, rest) ← take n rest
  refuse (b[0]? ≠ some 0) "tag 42 byte string does not start with 0x00"
  let cid ← cidFromBytes (b.drop 1)
  pure (.link cid, rest)

def value : (room : Nat) → List UInt8 → Except String (Drisl × List UInt8)
  | 0, _ => .error tooDeep
  | room + 1, input => do
    let (h, rest) ← head input
    match h.major with
    | 0 => pure (integer h.arg, rest)
    | 1 => pure (integer (-1 - h.arg), rest)
    | 2 =>
      let n ← length h.arg
      let (b, rest) ← take n rest
      let b ← newUint8Array b
      pure (.bytes b, rest)
    | 3 =>
      let n ← length h.arg
      let (b, rest) ← take n rest
      let s ← text b "text is not valid UTF-8"
      pure (.string s, rest)
    | 4 =>
      let n ← length h.arg
      refuse (rest.length < n) "array longer than the input"
      let (vs, rest) ← items (value room) n rest
      pure (.array vs, rest)
    | 5 =>
      let n ← length h.arg
      refuse (rest.length < 2 * n) "map longer than the input"
      let (ms, rest) ← members (value room) n none rest
      pure (.object ms, rest)
    | 6 =>
      refuse (h.arg ≠ 42) s!"tag {h.arg} is not tag 42"
      link rest
    | _ =>
      let v ← simple h
      pure (v, rest)

end Reader

end Estoc.Dasl
