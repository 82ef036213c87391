import Estoc.FolderObject.Tree
import Mathlib.Logic.Relation

/-!
# What a root reaches

What the blocks of a source say, whatever walks them: which blocks a block links, which entries a
directory has through all its shards, what stands at which names below an entry, and the raw blocks
of a file in their order. A walk is compared with these.
-/

set_option linter.unusedSectionVars false

namespace Estoc.FolderObject

open Json (lit)
open Utf16 (JsString)

inductive Kind where
  | file
  | dir
deriving DecidableEq

namespace Walk

variable (w : Walk)

/-! ## Blocks -/

/-- The block is there, and hashes to its CID. -/
def Held (cid : Cid) : Prop :=
  ∃ bytes, w.get (w.formats.text cid) = .ok (some bytes) ∧ checkCid w.formats cid bytes = .ok ()

/-- The block is not there. -/
def isAbsent (cid : Cid) : Bool := w.get (w.formats.text cid) matches .ok none

def IsNode (cid : Cid) (pb : PbNode) : Prop := fetchNode w.formats w.get cid = .ok pb

/-- One block links another. -/
def Links (cid child : Cid) : Prop := ∃ pb, w.IsNode cid pb ∧ ∃ link ∈ pb.node.Links, link.Hash = child

abbrev Reaches : Cid → Cid → Prop := Relation.ReflTransGen w.Links

/-- All that is reached is proved: it is there and hashes to its CID, or is a leaf that may be
absent and is. -/
def Proved (cid : Cid) : Prop := ∀ reached, w.Reaches cid reached →
  w.Held reached ∨ (w.leavesOptional = true ∧ reached.code = rawCode ∧ w.isAbsent reached = true)

/-! ## Entries -/

inductive ShardEntry : PbNode → JsString → Cid → Prop
  | here {pb : PbNode} {link : PBLink} (mem : link ∈ pb.node.Links) (long : 2 < (linkName link).length) :
      ShardEntry pb ((linkName link).drop 2) link.Hash
  | under {pb sub : PbNode} {link : PBLink} {name : JsString} {cid : Cid} (mem : link ∈ pb.node.Links)
      (short : (linkName link).length = 2) (node : w.IsNode link.Hash sub)
      (entry : ShardEntry sub name cid) : ShardEntry pb name cid

/-- An entry of a directory, through all its shards. -/
def EntryOf (pb : PbNode) (name : JsString) (cid : Cid) : Prop :=
  if pb.type = .directory then ∃ link ∈ pb.node.Links, linkName link = name ∧ link.Hash = cid
  else w.ShardEntry pb name cid

/-- A directory, flat or the first of its shards. -/
def IsDir (cid : Cid) (pb : PbNode) : Prop := w.IsNode cid pb ∧ pb.type.isDirectory = true

def IsFile (cid : Cid) : Prop := cid.code = rawCode ∨ ∃ pb, w.IsNode cid pb ∧ pb.type = .file

/-- What stands at which names below an entry, itself included. -/
inductive Below : Cid → List JsString → Cid → Kind → Prop
  | file {cid : Cid} (file : w.IsFile cid) : Below cid [] cid .file
  | dir {cid : Cid} {pb : PbNode} (dir : w.IsDir cid pb) : Below cid [] cid .dir
  | entry {cid child reached : Cid} {pb : PbNode} {name : JsString} {names : List JsString} {kind : Kind}
      (dir : w.IsDir cid pb) (entry : w.EntryOf pb name child) (below : Below child names reached kind) :
      Below cid (name :: names) reached kind

/-- The raw blocks of files one after another, in the order of their links. -/
inductive Leaves : List Cid → List Cid → Prop
  | nil : Leaves [] []
  | raw {cid : Cid} {rest leaves : List Cid} (raw : cid.code = rawCode) (more : Leaves rest leaves) :
      Leaves (cid :: rest) (cid :: leaves)
  | node {cid : Cid} {pb : PbNode} {rest leaves : List Cid} (node : w.IsNode cid pb)
      (type : pb.type = .file) (more : Leaves (pb.node.Links.map PBLink.Hash ++ rest) leaves) :
      Leaves (cid :: rest) leaves

/-- The raw blocks that are not there, by name, one for each link that names one. -/
def gaps (leaves : List Cid) : List JsString := (leaves.filter w.isAbsent).map w.formats.text

/-- The names in a directory are names, and each is of one entry. -/
def Plain (pb : PbNode) : Prop :=
  (∀ name child, w.EntryOf pb name child → Name name) ∧
    ∀ name child child', w.EntryOf pb name child → w.EntryOf pb name child' → child = child'

/-- So in every directory below. -/
def Proper (cid : Cid) : Prop := ∀ names reached pb, w.Below cid names reached .dir →
  w.IsNode reached pb → w.Plain pb

end Walk

/-! ## Facts about them -/

section Facts

variable {w : Walk} {cid child reached : Cid} {pb pb' : PbNode}

theorem refuse_bind_eq_ok {α : Type} {c : Prop} [Decidable c] {message : JsString}
    {f : Unit → Except Stop α} {a : α} : (refuse c message >>= f) = .ok a ↔ ¬ c ∧ f () = .ok a :=
  Checked.refuse_bind_eq_ok

theorem thrown_eq_ok {α : Type} {x : Except JsString α} {a : α} : thrown x = .ok a ↔ x = .ok a := by
  cases x with
  | error message =>
    constructor
    · intro h
      cases h
    · intro h
      cases h
  | ok b =>
    constructor
    · intro h
      cases h
      rfl
    · intro h
      cases h
      rfl

theorem foldlM_cons_eq_ok {α β : Type} {f : β → α → Except Stop β} {a : α} {rest : List α} {b c : β} :
    (a :: rest).foldlM f b = .ok c ↔ ∃ b', f b a = .ok b' ∧ rest.foldlM f b' = .ok c := by
  rw [List.foldlM_cons]
  exact Checked.bind_eq_ok

/-- What was fetched is there and hashes to its CID. -/
theorem fetchChecked_held {bytes : List UInt8} (h : fetchChecked w.formats w.get cid = .ok bytes) :
    w.Held cid := by
  obtain ⟨found, hget, h⟩ := Checked.bind_eq_ok.mp h
  cases found with
  | none => cases h
  | some found =>
    obtain ⟨⟨⟩, hcheck, -⟩ := Checked.bind_eq_ok.mp h
    exact ⟨found, thrown_eq_ok.mp hget, hcheck⟩

theorem Walk.IsNode.code (h : w.IsNode cid pb) : cid.code = dagPbCode :=
  not_not.mp (refuse_bind_eq_ok.mp h).1

theorem Walk.IsNode.held (h : w.IsNode cid pb) : w.Held cid := by
  obtain ⟨bytes, hbytes, -⟩ := Checked.bind_eq_ok.mp (refuse_bind_eq_ok.mp h).2
  exact fetchChecked_held hbytes

theorem Walk.IsNode.cid_eq (h : w.IsNode cid pb) : pb.cid = cid := by
  obtain ⟨bytes, -, h⟩ := Checked.bind_eq_ok.mp (refuse_bind_eq_ok.mp h).2
  obtain ⟨node, -, h⟩ := Checked.bind_eq_ok.mp h
  cases hdata : node.Data with
  | none => rw [hdata] at h; cases h
  | some data =>
    rw [hdata] at h
    obtain ⟨type, -, h⟩ := Checked.bind_eq_ok.mp h
    cases h
    rfl

theorem Walk.IsNode.unique (h : w.IsNode cid pb) (h' : w.IsNode cid pb') : pb = pb' :=
  Except.ok.inj (h.symm.trans h')

theorem Walk.IsNode.not_raw (h : w.IsNode cid pb) : cid.code ≠ rawCode := by
  rw [h.code]
  decide

/-- A raw block links none. -/
theorem proved_of_raw (hraw : cid.code = rawCode) (h : w.Held cid ∨
    (w.leavesOptional = true ∧ cid.code = rawCode ∧ w.isAbsent cid = true)) : w.Proved cid := by
  intro reached hreached
  rcases hreached.cases_head with rfl | ⟨child, ⟨pb, hpb, -⟩, -⟩
  · exact h
  · exact absurd hraw hpb.not_raw

/-- A node is proved with all it links. -/
theorem proved_of_node (hpb : w.IsNode cid pb) (h : ∀ link ∈ pb.node.Links, w.Proved link.Hash) :
    w.Proved cid := by
  intro reached hreached
  rcases hreached.cases_head with rfl | ⟨child, ⟨pb', hpb', link, hlink, rfl⟩, hrest⟩
  · exact .inl hpb.held
  · rw [hpb'.unique hpb] at hlink
    exact h link hlink reached hrest

theorem Walk.IsDir.not_file (h : w.IsDir cid pb) : ¬ w.IsFile cid := by
  rintro (hraw | ⟨pb', hpb', htype⟩)
  · exact h.1.not_raw hraw
  · rw [← h.1.unique hpb'] at htype
    have hdir := h.2
    rw [htype] at hdir
    cases hdir

/-- Below a file is only itself. -/
theorem below_of_file {names : List JsString} {kind : Kind} (hfile : w.IsFile cid) :
    w.Below cid names reached kind ↔ names = [] ∧ reached = cid ∧ kind = .file := by
  constructor
  · intro h
    cases h with
    | file => exact ⟨rfl, rfl, rfl⟩
    | dir hdir => exact absurd hfile hdir.not_file
    | entry hdir => exact absurd hfile hdir.not_file
  · rintro ⟨rfl, rfl, rfl⟩
    exact .file hfile

/-- Below a directory is itself, and what is below its entries. -/
theorem below_of_dir {names : List JsString} {kind : Kind} (hdir : w.IsDir cid pb) :
    w.Below cid names reached kind ↔ (names = [] ∧ reached = cid ∧ kind = .dir) ∨
      ∃ name child rest, names = name :: rest ∧ w.EntryOf pb name child ∧
        w.Below child rest reached kind := by
  constructor
  · intro h
    cases h with
    | file hfile => exact absurd hfile hdir.not_file
    | dir => exact .inl ⟨rfl, rfl, rfl⟩
    | @entry _ child _ pb' name rest _ hdir' hentry hbelow =>
      rw [hdir'.1.unique hdir.1] at hentry
      exact .inr ⟨name, child, rest, rfl, hentry, hbelow⟩
  · rintro (⟨rfl, rfl, rfl⟩ | ⟨name, child, rest, rfl, hentry, hbelow⟩)
    · exact .dir hdir
    · exact .entry hdir hentry hbelow

theorem Walk.Leaves.append {roots roots' leaves leaves' : List Cid} (h : w.Leaves roots leaves)
    (h' : w.Leaves roots' leaves') : w.Leaves (roots ++ roots') (leaves ++ leaves') := by
  induction h with
  | nil => exact h'
  | raw hraw _ ih => exact .raw hraw ih
  | node hnode htype _ ih =>
    rw [List.append_assoc] at ih
    exact .node hnode htype ih

/-- The leaves of files are what their blocks make them. -/
theorem Walk.Leaves.unique {roots leaves leaves' : List Cid} (h : w.Leaves roots leaves)
    (h' : w.Leaves roots leaves') : leaves = leaves' := by
  induction h generalizing leaves' with
  | nil => cases h'; rfl
  | raw hraw _ ih =>
    cases h' with
    | raw _ more => rw [ih more]
    | node hnode => exact absurd hraw hnode.not_raw
  | node hnode _ _ ih =>
    cases h' with
    | raw hraw => exact absurd hraw hnode.not_raw
    | node hnode' _ more =>
      rw [hnode'.unique hnode] at more
      exact ih more

/-! What stands below an entry is reached from it. -/

theorem reaches_of_shard {name : JsString} (hpb : w.IsNode cid pb) (h : w.ShardEntry pb name child) :
    w.Reaches cid child := by
  induction h generalizing cid with
  | @here pb link mem long => exact .single ⟨pb, hpb, link, mem, rfl⟩
  | @under pb sub link name child mem short node entry ih => exact .head ⟨pb, hpb, link, mem, rfl⟩ (ih node)

theorem reaches_of_entry {name : JsString} (hpb : w.IsNode cid pb) (h : w.EntryOf pb name child) :
    w.Reaches cid child := by
  unfold Walk.EntryOf at h
  split at h
  · obtain ⟨link, hlink, -, hchild⟩ := h
    exact .single ⟨pb, hpb, link, hlink, hchild⟩
  · exact reaches_of_shard hpb h

theorem reaches_of_below {names : List JsString} {kind : Kind} (h : w.Below cid names reached kind) :
    w.Reaches cid reached := by
  induction h with
  | file hfile => exact .refl
  | dir hdir => exact .refl
  | entry hdir hentry _ ih => exact (reaches_of_entry hdir.1 hentry).trans ih

theorem reaches_of_leaves {roots leaves : List Cid} (h : w.Leaves roots leaves) {leaf : Cid}
    (hleaf : leaf ∈ leaves) : ∃ root ∈ roots, w.Reaches root leaf := by
  induction h with
  | nil => cases hleaf
  | @raw cid rest leaves hraw _ ih =>
    rcases List.mem_cons.mp hleaf with rfl | hleaf
    · exact ⟨leaf, List.mem_cons_self, .refl⟩
    · obtain ⟨root, hroot, hreached⟩ := ih hleaf
      exact ⟨root, List.mem_cons_of_mem _ hroot, hreached⟩
  | @node cid pb rest leaves hpb _ _ ih =>
    obtain ⟨root, hroot, hreached⟩ := ih hleaf
    rcases List.mem_append.mp hroot with hroot | hroot
    · obtain ⟨link, hlink, rfl⟩ := List.mem_map.mp hroot
      exact ⟨cid, List.mem_cons_self, .head ⟨pb, hpb, link, hlink, rfl⟩ hreached⟩
    · exact ⟨root, List.mem_cons_of_mem _ hroot, hreached⟩

/-- A file whose blocks are all there has no gaps. -/
theorem gaps_of_required {leaves : List Cid} (hproved : w.Proved cid) (hrequired : w.leavesOptional = false)
    (h : w.Leaves [cid] leaves) : w.gaps leaves = [] := by
  rw [Walk.gaps, List.map_eq_nil_iff, List.filter_eq_nil_iff]
  intro leaf hleaf habsent
  obtain ⟨root, hroot, hreached⟩ := reaches_of_leaves h hleaf
  rw [List.mem_singleton.mp hroot] at hreached
  rcases hproved leaf hreached with ⟨bytes, hget, -⟩ | ⟨hoptional, -⟩
  · rw [Walk.isAbsent, hget] at habsent
    cases habsent
  · rw [hrequired] at hoptional
    cases hoptional

/-- Above what stands below an entry are directories. -/
theorem dir_above {names rest : List JsString} {kind : Kind} (hrest : rest ≠ [])
    (h : w.Below cid (names ++ rest) reached kind) : ∃ dir, w.Below cid names dir .dir := by
  induction names generalizing cid with
  | nil =>
    cases h with
    | file => exact absurd rfl hrest
    | dir => exact absurd rfl hrest
    | entry hdir => exact ⟨cid, .dir hdir⟩
  | cons name names ih =>
    cases h with
    | entry hdir hentry hbelow =>
      obtain ⟨dir, habove⟩ := ih hbelow
      exact ⟨dir, .entry hdir hentry habove⟩

theorem gaps_append (leaves leaves' : List Cid) :
    w.gaps (leaves ++ leaves') = w.gaps leaves ++ w.gaps leaves' := by
  rw [Walk.gaps, List.filter_append, List.map_append]
  rfl

/-- What a walk of an entry does, where it returns. -/
theorem walkEntry_eq_ok {depth : Nat} {link : PBLink} {name pre : JsString} {walked walked' : Walked} :
    w.walkEntry (depth + 1) link name pre walked = .ok walked' ↔
      Name name ∧ name ∉ walked.seen ∧ ∃ out, walked' = ⟨out, walked.seen ++ [name]⟩ ∧
        ((link.Hash.code = rawCode ∧ ∃ kept, out = w.addFile kept (pre ++ name) link.Hash ∧
          w.walkFileBlocks depth link.Hash (Walk.linkSize link) (pre ++ name) walked.out = .ok kept) ∨
        ∃ pb, w.IsNode link.Hash pb ∧
          ((pb.type.isDirectory = true ∧
            w.walkDir depth pb (pre ++ name ++ [slash]) walked.out = .ok out) ∨
          (pb.type = .file ∧ ∃ kept, out = w.addFile kept (pre ++ name) link.Hash ∧
            pb.node.Links.foldlM (fun out child => w.walkFileBlocks depth child.Hash
              (Walk.linkSize child) (pre ++ name) out) walked.out = .ok kept))) := by
  rw [Walk.walkEntry, refuse_bind_eq_ok, refuse_bind_eq_ok, Bool.not_eq_true, badName_eq_false]
  refine and_congr_right fun _ => and_congr_right fun _ => ?_
  dsimp only
  constructor
  · intro h
    split at h
    · next hraw =>
      obtain ⟨kept, hkept, h⟩ := Checked.bind_eq_ok.mp h
      cases h
      exact ⟨_, rfl, .inl ⟨hraw, kept, rfl, hkept⟩⟩
    · obtain ⟨pb, hpb, h⟩ := Checked.bind_eq_ok.mp h
      split at h
      · next htype =>
        obtain ⟨out, hout, h⟩ := Checked.bind_eq_ok.mp h
        cases h
        exact ⟨out, rfl, .inr ⟨pb, hpb, .inl ⟨htype, hout⟩⟩⟩
      · split at h
        · next htype =>
          obtain ⟨kept, hkept, h⟩ := Checked.bind_eq_ok.mp h
          cases h
          exact ⟨_, rfl, .inr ⟨pb, hpb, .inr ⟨htype, kept, rfl, hkept⟩⟩⟩
        · cases h
  · rintro ⟨out, rfl, ⟨hraw, kept, rfl, hkept⟩ | ⟨pb, hpb, hcase⟩⟩
    · rw [if_pos hraw]
      exact Checked.bind_eq_ok.mpr ⟨kept, hkept, rfl⟩
    · rw [if_neg hpb.not_raw]
      refine Checked.bind_eq_ok.mpr ⟨pb, hpb, ?_⟩
      rcases hcase with ⟨htype, hout⟩ | ⟨htype, kept, rfl, hkept⟩
      · rw [if_pos htype]
        exact Checked.bind_eq_ok.mpr ⟨out, hout, rfl⟩
      · rw [if_neg (by rw [htype]; exact Bool.false_ne_true), if_pos htype]
        exact Checked.bind_eq_ok.mpr ⟨kept, hkept, rfl⟩

/-- What a walk of one link of a shard does, where it returns. -/
theorem shardLink_eq_ok {depth : Nat} {link : PBLink} {pre : JsString} {walked walked' : Walked} :
    w.shardLink depth pre walked link = .ok walked' ↔
      ((Walk.linkName link).length = 2 ∧ ∃ sub, w.IsNode link.Hash sub ∧
        sub.type = .hamtShardedDirectory ∧ w.walkShard depth sub pre walked = .ok walked') ∨
      (2 < (Walk.linkName link).length ∧
        w.walkEntry depth link ((Walk.linkName link).drop 2) pre walked = .ok walked') := by
  rw [Walk.shardLink, refuse_bind_eq_ok]
  constructor
  · rintro ⟨hlabel, h⟩
    split at h
    · next hshort =>
      obtain ⟨sub, hsub, h⟩ := Checked.bind_eq_ok.mp h
      obtain ⟨htype, h⟩ := refuse_bind_eq_ok.mp h
      exact .inl ⟨hshort, sub, hsub, not_not.mp htype, h⟩
    · exact .inr ⟨by omega, h⟩
  · rintro (⟨hshort, sub, hsub, htype, h⟩ | ⟨hlong, h⟩)
    · rw [if_pos hshort]
      exact ⟨by omega, Checked.bind_eq_ok.mpr ⟨sub, hsub,
        refuse_bind_eq_ok.mpr ⟨not_not.mpr htype, h⟩⟩⟩
    · rw [if_neg (by omega)]
      exact ⟨by omega, h⟩

/-- What a walk of a directory does, where it returns. -/
theorem walkDir_eq_ok {depth : Nat} {pre : JsString} {out out' : VerifiedTree} :
    w.walkDir (depth + 1) pb pre out = .ok out' ↔
      ∃ walked, out' = walked.out ∧
        ((pb.type = .directory ∧ Walk.ascending (pb.node.Links.map Walk.linkName) = true ∧
          pb.node.Links.foldlM (fun walked link => w.walkEntry depth link (Walk.linkName link) pre walked)
            ⟨w.addDir out pre pb.cid, []⟩ = .ok walked) ∨
        (pb.type ≠ .directory ∧
          w.walkShard depth pb pre ⟨w.addDir out pre pb.cid, []⟩ = .ok walked)) := by
  rw [Walk.walkDir]
  dsimp only
  constructor
  · intro h
    split at h
    · next htype =>
      obtain ⟨hascending, h⟩ := refuse_bind_eq_ok.mp h
      obtain ⟨walked, hwalked, h⟩ := Checked.bind_eq_ok.mp h
      cases h
      exact ⟨walked, rfl, .inl ⟨htype, eq_true_of_ne_false hascending, hwalked⟩⟩
    · next htype =>
      obtain ⟨walked, hwalked, h⟩ := Checked.bind_eq_ok.mp h
      cases h
      exact ⟨walked, rfl, .inr ⟨htype, hwalked⟩⟩
  · rintro ⟨walked, rfl, ⟨htype, hascending, hwalked⟩ | ⟨htype, hwalked⟩⟩
    · rw [if_pos htype]
      refine refuse_bind_eq_ok.mpr ⟨?_, Checked.bind_eq_ok.mpr ⟨walked, hwalked, rfl⟩⟩
      rw [hascending]
      exact Bool.noConfusion
    · rw [if_neg htype]
      exact Checked.bind_eq_ok.mpr ⟨walked, hwalked, rfl⟩

end Facts

/-! ## Spelling -/

section Spelling

/-- The names of a directory, each with a slash behind it. -/
def prefixOf (names : List JsString) : JsString := names.flatMap (· ++ [slash])

theorem prefixOf_concat (names : List JsString) (name : JsString) :
    prefixOf (names ++ [name]) = prefixOf names ++ name ++ [slash] := by
  rw [prefixOf, List.flatMap_append, List.flatMap_singleton, List.append_assoc]
  rfl

theorem join_concat (names : List JsString) (name : JsString) :
    join (names ++ [name]) = prefixOf names ++ name := by
  induction names with
  | nil => exact List.intercalate_singleton
  | cons first rest ih =>
    have hne : rest ++ [name] ≠ [] := List.append_ne_nil_of_right_ne_nil _ (List.cons_ne_nil _ _)
    rw [join, List.cons_append, List.intercalate_cons_of_ne_nil hne]
    rw [join] at ih
    rw [ih, prefixOf, prefixOf, List.flatMap_cons]
    simp only [List.append_assoc]

theorem directoryPath_prefixOf (names : List JsString) :
    Walk.directoryPath (prefixOf names) = join names := by
  rcases List.eq_nil_or_concat names with rfl | ⟨rest, name, rfl⟩
  · rfl
  · rw [List.concat_eq_append, prefixOf_concat, Walk.directoryPath, List.getLast?_concat, if_pos rfl,
      List.dropLast_concat, join_concat]

theorem join_ne_nil {names : List JsString} (hne : names ≠ []) (hnames : ∀ name ∈ names, Name name) :
    join names ≠ [] := by
  obtain ⟨rest, name, rfl⟩ := (List.eq_nil_or_concat names).resolve_left hne
  rw [List.concat_eq_append] at hnames ⊢
  rw [join_concat]
  refine List.append_ne_nil_of_right_ne_nil _ (hnames name ?_).nonempty
  exact List.mem_append_right _ (List.mem_singleton_self _)

/-- Names are told by how they are joined, none of them too. -/
theorem names_of_join {names names' : List JsString} (hnames : ∀ name ∈ names, Name name)
    (hnames' : ∀ name ∈ names', Name name) (h : join names = join names') : names = names' := by
  by_cases hne : names = []
  · by_cases hne' : names' = []
    · rw [hne, hne']
    · exact absurd (h.symm.trans (hne ▸ rfl)) (join_ne_nil hne' hnames')
  · by_cases hne' : names' = []
    · exact absurd (h.trans (hne' ▸ rfl)) (join_ne_nil hne hnames)
    · exact join_injective hne hne' hnames hnames' h

end Spelling

end Estoc.FolderObject
