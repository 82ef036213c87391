import Estoc.FolderObject.Paths
import Estoc.Lib.OMap

/-!
# Verifying a tree

A tree is blocks named by their hash. `verifyTree` fetches the block its root names and then
whatever that one links, each proved against the CID that links it, and puts down what it met: the
files and the directories by path, and where leaves may be absent the raw blocks that were not
there. Directories are flat nodes, whose links must ascend, or are sharded over nodes whose links
carry two characters of the bucket in front of the name; all shards of a directory share its names.

A walk goes as deep as the blocks do. It takes the depth it may go to, and stops where that is used
up; what throws says what it throws.
-/

set_option linter.unusedSectionVars false

namespace Estoc.FolderObject

open Json (lit)
open Utf16 (JsString)

/-- A CID: its version, the codec of the block, and the hash of the bytes with the code of the hash. -/
structure Cid where
  version : Nat
  code : Nat
  hashCode : Nat
  digest : List UInt8
deriving DecidableEq

def rawCode : Nat := 0x55
def dagPbCode : Nat := 0x70
def sha256Code : Nat := 0x12

structure PBLink where
  Hash : Cid
  Name : Option JsString
  Tsize : Option Nat

structure PBNode where
  Data : Option (List UInt8)
  Links : List PBLink

inductive UnixFSType where
  | raw
  | directory
  | file
  | metadata
  | symlink
  | hamtShardedDirectory
deriving DecidableEq

def UnixFSType.text : UnixFSType → JsString
  | .raw => lit "raw"
  | .directory => lit "directory"
  | .file => lit "file"
  | .metadata => lit "metadata"
  | .symlink => lit "symlink"
  | .hamtShardedDirectory => lit "hamt-sharded-directory"

def UnixFSType.isDirectory : UnixFSType → Bool
  | .directory => true
  | .hamtShardedDirectory => true
  | _ => false

/-- What the walk takes from elsewhere: the hash, how CIDs are spelled, and the decoders. -/
structure Formats where
  sha256 : List UInt8 → List UInt8
  text : Cid → JsString
  parse : JsString → Except JsString Cid
  decode : List UInt8 → Except JsString PBNode
  unmarshal : List UInt8 → Except JsString UnixFSType

/-- A block source; it may itself fail. -/
abbrev GetBlock := JsString → Except JsString (Option (List UInt8))

/-- How a walk stops: what it may go to is used up, or something was thrown. -/
inductive Stop where
  | outOfDepth
  | thrown (message : JsString)
deriving DecidableEq

def throws {α : Type} (message : JsString) : Except Stop α := .error (.thrown message)

def refuse (c : Prop) [Decidable c] (message : JsString) : Except Stop Unit :=
  Checked.refuse c (.thrown message)

def thrown {α : Type} (x : Except JsString α) : Except Stop α := x.mapError .thrown

section Blocks

variable (formats : Formats)

/-- Throw unless the bytes hash to the CID. -/
def checkCid (cid : Cid) (bytes : List UInt8) : Except Stop Unit := do
  refuse (cid.hashCode ≠ sha256Code) (lit "unsupported multihash in " ++ formats.text cid)
  refuse (Cid.mk cid.version cid.code sha256Code (formats.sha256 bytes) ≠ cid)
    (lit "object bytes do not hash to " ++ formats.text cid)

def fetchChecked (getObject : GetBlock) (cid : Cid) : Except Stop (List UInt8) := do
  match ← thrown (getObject (formats.text cid)) with
  | none => throws (lit "missing object " ++ formats.text cid)
  | some bytes =>
    checkCid formats cid bytes
    pure bytes

/-- A decoded dag-pb node with its UnixFS type. -/
structure PbNode where
  cid : Cid
  node : PBNode
  type : UnixFSType

def fetchNode (get : GetBlock) (cid : Cid) : Except Stop PbNode := do
  refuse (cid.code ≠ dagPbCode) (formats.text cid ++ lit " is not a dag-pb node")
  let bytes ← fetchChecked formats get cid
  let node ← thrown (formats.decode bytes)
  match node.Data with
  | none => throws (lit "dag-pb node " ++ formats.text cid ++ lit " has no UnixFS data")
  | some data => pure ⟨cid, node, ← thrown (formats.unmarshal data)⟩

end Blocks

structure VerifiedTree where
  files : OMap JsString JsString
  dirs : OMap JsString JsString
  missing : OMap JsString Nat
  partial_ : OMap JsString (List JsString)

def VerifiedTree.empty : VerifiedTree := ⟨.empty, .empty, .empty, .empty⟩

/-- What a walk is over, and whether a missing leaf is a fact or a fault. -/
structure Walk where
  formats : Formats
  get : GetBlock
  leavesOptional : Bool

/-- What has been put down, and the names of the directory walked so far. -/
structure Walked where
  out : VerifiedTree
  seen : List JsString

namespace Walk

variable (w : Walk)

/-- A leaf that is not there. -/
def absent (out : VerifiedTree) (cid : Cid) (size : Nat) (path : JsString) : VerifiedTree :=
  let text := w.formats.text cid
  { out with
    missing := out.missing.set text size
    partial_ := out.partial_.set path ((out.partial_.get? path).getD [] ++ [text]) }

/-- A raw block of a file. -/
def leaf (out : VerifiedTree) (cid : Cid) (size : Nat) (path : JsString) :
    Except Stop VerifiedTree := do
  match ← thrown (w.get (w.formats.text cid)) with
  | none =>
    refuse (w.leavesOptional = false) (lit "missing object " ++ w.formats.text cid)
    pure (w.absent out cid size path)
  | some bytes =>
    checkCid w.formats cid bytes
    pure out

def linkSize (link : PBLink) : Nat := link.Tsize.getD 0

def linkName (link : PBLink) : JsString := link.Name.getD []

/-- Every block of a file. -/
def walkFileBlocks : Nat → Cid → Nat → JsString → VerifiedTree → Except Stop VerifiedTree
  | 0, _, _, _, _ => .error .outOfDepth
  | depth + 1, cid, size, path, out =>
    if cid.code = rawCode then w.leaf out cid size path
    else do
      let pb ← fetchNode w.formats w.get cid
      refuse (pb.type ≠ .file) (path ++ lit " is a " ++ pb.type.text ++ lit ", not a file")
      pb.node.Links.foldlM (fun out link => walkFileBlocks depth link.Hash (linkSize link) path out) out

def addFile (out : VerifiedTree) (path : JsString) (cid : Cid) : VerifiedTree :=
  { out with files := out.files.set path (w.formats.text cid) }

/-- A trailing slash taken off. -/
def directoryPath (pre : JsString) : JsString := if pre.getLast? = some slash then pre.dropLast else pre

def shown (pre : JsString) : JsString := if pre = [] then [slash] else pre

def addDir (out : VerifiedTree) (pre : JsString) (cid : Cid) : VerifiedTree :=
  { out with dirs := out.dirs.set (directoryPath pre) (w.formats.text cid) }

/-- Do the names stand in strictly ascending order of their UTF-8 bytes. -/
def ascending : List JsString → Bool
  | [] => true
  | [_] => true
  | a :: b :: rest =>
    decide (List.compareLex compare (Utf16.encodeUtf8 a) (Utf16.encodeUtf8 b) = .lt) &&
      ascending (b :: rest)

mutual

/-- One directory entry, whichever kind the link turns out to name. -/
def walkEntry : Nat → PBLink → JsString → JsString → Walked → Except Stop Walked
  | 0, _, _, _, _ => .error .outOfDepth
  | depth + 1, link, name, pre, walked => do
    refuse (badName name = true) (lit "invalid entry name: " ++ Json.quote name)
    refuse (name ∈ walked.seen) (lit "duplicate entry name: " ++ Json.quote name)
    let seen := walked.seen ++ [name]
    let path := pre ++ name
    let cid := link.Hash
    if cid.code = rawCode then
      let out ← w.walkFileBlocks depth cid (linkSize link) path walked.out
      pure ⟨w.addFile out path cid, seen⟩
    else
      let pb ← fetchNode w.formats w.get cid
      if pb.type.isDirectory then
        let out ← walkDir depth pb (path ++ [slash]) walked.out
        pure ⟨out, seen⟩
      else if pb.type = .file then
        let out ← pb.node.Links.foldlM
          (fun out child => w.walkFileBlocks depth child.Hash (linkSize child) path out) walked.out
        pure ⟨w.addFile out path cid, seen⟩
      else throws (lit "unsupported node kind at " ++ path ++ lit ": " ++ pb.type.text)

/-- The entries of a HAMT shard and of the shards under it. -/
def walkShard : Nat → PbNode → JsString → Walked → Except Stop Walked
  | 0, _, _, _ => .error .outOfDepth
  | depth + 1, pb, pre, walked =>
    pb.node.Links.foldlM (fun walked link => do
      let label := linkName link
      refuse (label.length < 2) (lit "shard " ++ shown pre ++ lit " has a link without a bucket label")
      if label.length = 2 then
        let sub ← fetchNode w.formats w.get link.Hash
        refuse (sub.type ≠ .hamtShardedDirectory)
          (lit "shard " ++ shown pre ++ lit " links a " ++ sub.type.text ++ lit " as a sub-shard")
        walkShard depth sub pre walked
      else walkEntry depth link (label.drop 2) pre walked) walked

def walkDir : Nat → PbNode → JsString → VerifiedTree → Except Stop VerifiedTree
  | 0, _, _, _ => .error .outOfDepth
  | depth + 1, pb, pre, out => do
    let out := w.addDir out pre pb.cid
    let walked ←
      if pb.type = .directory then do
        refuse (ascending (pb.node.Links.map linkName) = false)
          (lit "directory " ++ shown pre ++ lit " links are not in canonical order")
        pb.node.Links.foldlM
          (fun walked link => walkEntry depth link (linkName link) pre walked) ⟨out, []⟩
      else walkShard depth pb pre ⟨out, []⟩
    pure walked.out

end

/-- What `walkShard` does with one link. -/
def shardLink (depth : Nat) (pre : JsString) (walked : Walked) (link : PBLink) : Except Stop Walked := do
  let label := linkName link
  refuse (label.length < 2) (lit "shard " ++ shown pre ++ lit " has a link without a bucket label")
  if label.length = 2 then
    let sub ← fetchNode w.formats w.get link.Hash
    refuse (sub.type ≠ .hamtShardedDirectory)
      (lit "shard " ++ shown pre ++ lit " links a " ++ sub.type.text ++ lit " as a sub-shard")
    w.walkShard depth sub pre walked
  else w.walkEntry depth link (label.drop 2) pre walked

theorem walkShard_succ (depth : Nat) (pb : PbNode) (pre : JsString) (walked : Walked) :
    w.walkShard (depth + 1) pb pre walked = pb.node.Links.foldlM (w.shardLink depth pre) walked := by
  rw [walkShard]
  rfl

end Walk

/-- Recompute a tree from an object set and confirm it reaches the root; leaves may be optional. -/
def verifyTree (w : Walk) (depth : Nat) (root : JsString) : Except Stop VerifiedTree := do
  let rootCid ← thrown (w.formats.parse root)
  refuse (rootCid.code ≠ dagPbCode) (lit "root is not a UnixFS directory")
  let pb ← fetchNode w.formats w.get rootCid
  refuse (pb.type.isDirectory = false) (lit "root is not a UnixFS directory")
  w.walkDir depth pb [] .empty

end Estoc.FolderObject
