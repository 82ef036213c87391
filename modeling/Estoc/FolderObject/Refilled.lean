import Estoc.FolderObject.Verified

/-!
# The same tree from another source

A walk asks its source for nothing but what it reaches. Over another source that has the same nodes,
and of every leaf reached either the bytes or, where leaves may be absent, nothing, the walk returns
too, with the same files and the same directories: what else a source has is passed over, a tree
walked with leaves missing is walked again when they came in, and a tree that was whole is shown by
its nodes alone.
-/

set_option linter.unusedSectionVars false

namespace Estoc.FolderObject

open Json (lit)
open Utf16 (JsString)

/-- Two folds whose steps agree up to a relation. -/
theorem foldlM_sim {α β γ : Type} {R : β → γ → Prop} {f : β → α → Except Stop β}
    {g : γ → α → Except Stop γ} {l : List α} {b b' : β} {c : γ}
    (h : l.foldlM f b = .ok b') (hR : R b c)
    (hstep : ∀ a ∈ l, ∀ b b' c, f b a = .ok b' → R b c → ∃ c', g c a = .ok c' ∧ R b' c') :
    ∃ c', l.foldlM g c = .ok c' ∧ R b' c' := by
  induction l generalizing b c with
  | nil =>
    cases h
    exact ⟨c, rfl, hR⟩
  | cons a rest ih =>
    obtain ⟨next, hnext, hrest⟩ := foldlM_cons_eq_ok.mp h
    obtain ⟨next', hnext', hR'⟩ := hstep a List.mem_cons_self _ _ _ hnext hR
    obtain ⟨c', hc', hR''⟩ := ih hrest hR' fun a ha => hstep a (List.mem_cons_of_mem _ ha)
    exact ⟨c', foldlM_cons_eq_ok.mpr ⟨next', hnext', hc'⟩, hR''⟩

/-- The walk over another source, or with leaves treated another way. -/
def Walk.elsewhere (w : Walk) (get : GetBlock) (leavesOptional : Bool) : Walk :=
  ⟨w.formats, get, leavesOptional⟩

/-- Every leaf reached is there, or may be absent and is. -/
def Walk.Filled (w w' : Walk) (cid : Cid) : Prop := ∀ reached, w.Reaches cid reached →
  reached.code = rawCode →
    w'.Held reached ∨ (w'.leavesOptional = true ∧ w'.isAbsent reached = true)

/-- A source that has every node the walk's has. -/
def Walk.NodesIn (w : Walk) (get : GetBlock) : Prop := ∀ cid bytes, cid.code = dagPbCode →
  w.get (w.formats.text cid) = .ok (some bytes) → get (w.formats.text cid) = .ok (some bytes)

/-- The same files and directories. -/
def SameListing (out out' : VerifiedTree) : Prop := out'.files = out.files ∧ out'.dirs = out.dirs

/-- The same of one directory, with the same names seen. -/
def SameWalked (walked walked' : Walked) : Prop :=
  SameListing walked.out walked'.out ∧ walked'.seen = walked.seen

section Elsewhere

variable {w : Walk} {get : GetBlock} {leavesOptional : Bool} {cid child : Cid} {pb : PbNode}
  {out out' found : VerifiedTree} {walked walked' other : Walked} {depth depth' : Nat} {pre : JsString}

/-- What is filled of a node is filled of what it links. -/
theorem Walk.Filled.link {w' : Walk} {link : PBLink} (h : w.Filled w' cid) (hpb : w.IsNode cid pb)
    (hlink : link ∈ pb.node.Links) : w.Filled w' link.Hash := fun reached hreached =>
  h reached (.head ⟨pb, hpb, link, hlink, rfl⟩ hreached)

theorem isNode_elsewhere (hnodes : w.NodesIn get) (h : w.IsNode cid pb) : (w.elsewhere get leavesOptional).IsNode cid pb := by
  obtain ⟨bytes, hbytes, hrest⟩ := Checked.bind_eq_ok.mp (refuse_bind_eq_ok.mp h).2
  refine refuse_bind_eq_ok.mpr ⟨not_not.mpr h.code, Checked.bind_eq_ok.mpr ⟨bytes, ?_, hrest⟩⟩
  obtain ⟨held, hget, hheld⟩ := Checked.bind_eq_ok.mp hbytes
  cases held with
  | none => cases hheld
  | some held =>
    have hget' := hnodes cid held h.code (thrown_eq_ok.mp hget)
    exact Checked.bind_eq_ok.mpr ⟨some held, thrown_eq_ok.mpr hget', hheld⟩

theorem leaf_elsewhere {size : Nat} {path : JsString} (hraw : cid.code = rawCode)
    (hfilled : w.Filled (w.elsewhere get leavesOptional) cid) (hsame : SameListing out found) :
    ∃ found', (w.elsewhere get leavesOptional).leaf found cid size path = .ok found' ∧
      SameListing out found' := by
  rcases hfilled cid .refl hraw with ⟨bytes, hget, hcheck⟩ | ⟨hoptional, habsent⟩
  · exact ⟨found, Checked.bind_eq_ok.mpr ⟨some bytes, thrown_eq_ok.mpr hget,
      Checked.bind_eq_ok.mpr ⟨(), hcheck, rfl⟩⟩, hsame⟩
  · refine ⟨(w.elsewhere get leavesOptional).absent found cid size path, ?_, hsame⟩
    have hget : get (w.formats.text cid) = .ok none := by
      unfold Walk.isAbsent at habsent
      split at habsent
      · next hget => exact hget
      · cases habsent
    refine Checked.bind_eq_ok.mpr ⟨none, thrown_eq_ok.mpr hget, refuse_bind_eq_ok.mpr ⟨?_, rfl⟩⟩
    rw [hoptional]
    exact Bool.noConfusion

theorem walkFileBlocks_elsewhere {size : Nat} {path : JsString} (hnodes : w.NodesIn get)
    (h : w.walkFileBlocks depth cid size path out = .ok out') (hdepth : depth ≤ depth')
    (hfilled : w.Filled (w.elsewhere get leavesOptional) cid) (hsame : SameListing out found) :
    ∃ found', (w.elsewhere get leavesOptional).walkFileBlocks depth' cid size path found =
      .ok found' ∧ SameListing out' found' := by
  induction depth generalizing depth' cid size out out' found with
  | zero => cases h
  | succ depth ih =>
    cases depth' with
    | zero => cases hdepth
    | succ depth' =>
      have hdepth := Nat.le_of_succ_le_succ hdepth
      rw [Walk.walkFileBlocks] at h ⊢
      split at h
      · next hraw =>
        rw [if_pos hraw]
        have hkept := (leaf_ok hraw h).1
        refine leaf_elsewhere hraw hfilled ⟨?_, ?_⟩
        · rw [hkept.files, hsame.1]
        · rw [hkept.dirs, hsame.2]
      · next hraw =>
        rw [if_neg hraw]
        obtain ⟨pb, hpb, h⟩ := Checked.bind_eq_ok.mp h
        obtain ⟨htype, h⟩ := refuse_bind_eq_ok.mp h
        obtain ⟨found', hfound', hsame'⟩ := foldlM_sim (R := SameListing) h hsame
          fun link hlink _ _ _ hout hsame => ih hout hdepth (hfilled.link hpb hlink) hsame
        exact ⟨found', Checked.bind_eq_ok.mpr ⟨pb, isNode_elsewhere hnodes hpb,
          refuse_bind_eq_ok.mpr ⟨htype, hfound'⟩⟩, hsame'⟩

/-! ## Entries -/

variable (w get leavesOptional) in
/-- A walk of an entry goes the same way over the other source. -/
def EntryElsewhere (depth : Nat) : Prop :=
  ∀ {depth' link name pre walked walked' found}, depth ≤ depth' →
    w.walkEntry depth link name pre walked = .ok walked' →
    w.Filled (w.elsewhere get leavesOptional) link.Hash → SameWalked walked found →
    ∃ found', (w.elsewhere get leavesOptional).walkEntry depth' link name pre found = .ok found' ∧
      SameWalked walked' found'

variable (w get leavesOptional) in
/-- So does a walk of a shard. -/
def ShardElsewhere (depth : Nat) : Prop :=
  ∀ {depth' cid pb pre walked walked' found}, depth ≤ depth' → w.IsNode cid pb →
    w.walkShard depth pb pre walked = .ok walked' →
    w.Filled (w.elsewhere get leavesOptional) cid → SameWalked walked found →
    ∃ found', (w.elsewhere get leavesOptional).walkShard depth' pb pre found = .ok found' ∧
      SameWalked walked' found'

variable (w get leavesOptional) in
/-- So does a walk of a directory. -/
def DirElsewhere (depth : Nat) : Prop :=
  ∀ {depth' cid pb pre out out' found}, depth ≤ depth' → w.IsNode cid pb →
    w.walkDir depth pb pre out = .ok out' →
    w.Filled (w.elsewhere get leavesOptional) cid → SameListing out found →
    ∃ found', (w.elsewhere get leavesOptional).walkDir depth' pb pre found = .ok found' ∧
      SameListing out' found'

theorem SameListing.addFile {path : JsString} (h : SameListing out found) :
    SameListing (w.addFile out path cid) ((w.elsewhere get leavesOptional).addFile found path cid) := by
  refine ⟨?_, h.2⟩
  change found.files.set path (w.formats.text cid) = _
  rw [h.1]
  rfl

theorem SameListing.addDir (h : SameListing out found) :
    SameListing (w.addDir out pre cid) ((w.elsewhere get leavesOptional).addDir found pre cid) := by
  refine ⟨h.1, ?_⟩
  change found.dirs.set (Walk.directoryPath pre) (w.formats.text cid) = _
  rw [h.2]
  rfl

theorem entryElsewhere_succ (hnodes : w.NodesIn get) (hdirs : DirElsewhere w get leavesOptional depth) :
    EntryElsewhere w get leavesOptional (depth + 1) := by
  intro depth' link name pre walked walked' found hdepth h hfilled hsame
  cases depth' with
  | zero => cases hdepth
  | succ depth' =>
    have hdepth := Nat.le_of_succ_le_succ hdepth
    obtain ⟨hlisting, hseen⟩ := hsame
    obtain ⟨hname, hnew, out, rfl, hcase⟩ := walkEntry_eq_ok.mp h
    rw [← hseen] at hnew ⊢
    rcases hcase with ⟨hraw, kept, rfl, hkept⟩ | ⟨pb, hpb, ⟨htype, hout⟩ | ⟨htype, kept, rfl, hkept⟩⟩
    · obtain ⟨kept', hkept', hlisting'⟩ := walkFileBlocks_elsewhere hnodes hkept hdepth hfilled hlisting
      exact ⟨_, walkEntry_eq_ok.mpr ⟨hname, hnew, _, rfl, .inl ⟨hraw, kept', rfl, hkept'⟩⟩,
        hlisting'.addFile, rfl⟩
    · obtain ⟨out', hout', hlisting'⟩ := hdirs hdepth hpb hout hfilled hlisting
      exact ⟨_, walkEntry_eq_ok.mpr ⟨hname, hnew, _, rfl,
        .inr ⟨pb, isNode_elsewhere hnodes hpb, .inl ⟨htype, hout'⟩⟩⟩, hlisting', rfl⟩
    · obtain ⟨kept', hkept', hlisting'⟩ := foldlM_sim (R := SameListing) hkept hlisting
        fun link hlink _ _ _ hout hsame =>
          walkFileBlocks_elsewhere hnodes hout hdepth (hfilled.link hpb hlink) hsame
      exact ⟨_, walkEntry_eq_ok.mpr ⟨hname, hnew, _, rfl,
        .inr ⟨pb, isNode_elsewhere hnodes hpb, .inr ⟨htype, kept', rfl, hkept'⟩⟩⟩, hlisting'.addFile, rfl⟩

theorem shardElsewhere_succ (hnodes : w.NodesIn get)
    (hentries : EntryElsewhere w get leavesOptional depth)
    (hshards : ShardElsewhere w get leavesOptional depth) :
    ShardElsewhere w get leavesOptional (depth + 1) := by
  intro depth' cid pb pre walked walked' found hdepth hpb h hfilled hsame
  cases depth' with
  | zero => cases hdepth
  | succ depth' =>
    have hdepth := Nat.le_of_succ_le_succ hdepth
    rw [Walk.walkShard_succ] at h ⊢
    refine foldlM_sim (R := SameWalked) h hsame fun link hlink walked walked' found hwalked hsame => ?_
    have hfilled := hfilled.link hpb hlink
    rcases shardLink_eq_ok.mp hwalked with ⟨hshort, sub, hsub, htype, hwalked⟩ | ⟨hlong, hwalked⟩
    · obtain ⟨found', hfound', hsame'⟩ := hshards hdepth hsub hwalked hfilled hsame
      exact ⟨found', shardLink_eq_ok.mpr (.inl ⟨hshort, sub, isNode_elsewhere hnodes hsub, htype, hfound'⟩),
        hsame'⟩
    · obtain ⟨found', hfound', hsame'⟩ := hentries hdepth hwalked hfilled hsame
      exact ⟨found', shardLink_eq_ok.mpr (.inr ⟨hlong, hfound'⟩), hsame'⟩

theorem dirElsewhere_succ (hentries : EntryElsewhere w get leavesOptional depth)
    (hshards : ShardElsewhere w get leavesOptional depth) :
    DirElsewhere w get leavesOptional (depth + 1) := by
  intro depth' cid pb pre out out' found hdepth hpb h hfilled hsame
  cases depth' with
  | zero => cases hdepth
  | succ depth' =>
    have hdepth := Nat.le_of_succ_le_succ hdepth
    have hstart : SameWalked ⟨w.addDir out pre pb.cid, []⟩
        ⟨(w.elsewhere get leavesOptional).addDir found pre pb.cid, []⟩ := ⟨hsame.addDir, rfl⟩
    obtain ⟨walked, rfl, ⟨htype, hascending, hwalked⟩ | ⟨htype, hwalked⟩⟩ := walkDir_eq_ok.mp h
    · obtain ⟨found', hfound', hsame'⟩ := foldlM_sim (R := SameWalked) hwalked hstart
        fun link hlink _ _ _ hwalked hsame => hentries hdepth hwalked (hfilled.link hpb hlink) hsame
      exact ⟨found'.out, walkDir_eq_ok.mpr ⟨found', rfl, .inl ⟨htype, hascending, hfound'⟩⟩, hsame'.1⟩
    · obtain ⟨found', hfound', hsame'⟩ := hshards hdepth hpb hwalked hfilled hstart
      exact ⟨found'.out, walkDir_eq_ok.mpr ⟨found', rfl, .inr ⟨htype, hfound'⟩⟩, hsame'.1⟩

theorem elsewhere (hnodes : w.NodesIn get) : EntryElsewhere w get leavesOptional depth ∧
    ShardElsewhere w get leavesOptional depth ∧ DirElsewhere w get leavesOptional depth := by
  induction depth with
  | zero =>
    refine ⟨?_, ?_, ?_⟩
    · intro _ _ _ _ _ _ _ _ h
      cases h
    · intro _ _ _ _ _ _ _ _ _ h
      cases h
    · intro _ _ _ _ _ _ _ _ _ h
      cases h
  | succ depth ih =>
    obtain ⟨hentries, hshards, hdirs⟩ := ih
    exact ⟨entryElsewhere_succ hnodes hdirs, shardElsewhere_succ hnodes hentries hshards,
      dirElsewhere_succ hentries hshards⟩

/-! ## The tree -/

/-- A tree that verifies verifies over every source with its nodes, where each leaf of it is there
or may be absent and is, with the same files and directories. -/
theorem verifyTree_elsewhere {root : JsString} {rootCid : Cid} (h : verifyTree w depth root = .ok out)
    (hroot : w.formats.parse root = .ok rootCid) (hnodes : w.NodesIn get)
    (hfilled : w.Filled (w.elsewhere get leavesOptional) rootCid) (hdepth : depth ≤ depth') :
    ∃ out', verifyTree (w.elsewhere get leavesOptional) depth' root = .ok out' ∧
      out'.files = out.files ∧ out'.dirs = out.dirs := by
  obtain ⟨cid, hcid, h⟩ := Checked.bind_eq_ok.mp h
  obtain rfl : cid = rootCid := Except.ok.inj ((thrown_eq_ok.mp hcid).symm.trans hroot)
  obtain ⟨hcode, h⟩ := refuse_bind_eq_ok.mp h
  obtain ⟨pb, hpb, h⟩ := Checked.bind_eq_ok.mp h
  obtain ⟨htype, h⟩ := refuse_bind_eq_ok.mp h
  obtain ⟨out', hout', hsame⟩ := (elsewhere hnodes).2.2 hdepth hpb h hfilled ⟨rfl, rfl⟩
  exact ⟨out', Checked.bind_eq_ok.mpr ⟨cid, hcid, refuse_bind_eq_ok.mpr ⟨hcode,
    Checked.bind_eq_ok.mpr ⟨pb, isNode_elsewhere hnodes hpb, refuse_bind_eq_ok.mpr ⟨htype, hout'⟩⟩⟩⟩, hsame⟩

end Elsewhere

/-! The directory of two files, the second come in. -/

def pairWhole : GetBlock := fun text => .ok (if text = pairText then some pairBytes else
  if text = hiText then some [104, 105] else if text = hoText then some [104, 111] else none)

def pairNode : PbNode :=
  ⟨pairCid, ⟨some [8, 1], [⟨hiCid, some (lit "a"), some 2⟩, ⟨hoCid, some (lit "b"), some 2⟩]⟩, .directory⟩

theorem pair_reaches {cid : Cid} (h : pairHalf.Reaches pairCid cid) (hraw : cid.code = rawCode) :
    cid = hiCid ∨ cid = hoCid := by
  have hleaf {leaf reached : Cid} (hraw : leaf.code = rawCode) (h : pairHalf.Reaches leaf reached) :
      reached = leaf := by
    rcases h.cases_head with rfl | ⟨child, ⟨pb, hpb, -⟩, -⟩
    · rfl
    · exact absurd hraw hpb.not_raw
  rcases h.cases_head with rfl | ⟨child, ⟨pb, hpb, link, hlink, rfl⟩, hrest⟩
  · cases hraw
  · obtain rfl : pb = pairNode := hpb.unique (show fetchNode _ _ _ = .ok pairNode from rfl)
    rcases List.mem_cons.mp hlink with rfl | hlink
    · exact .inl (hleaf rfl hrest)
    · rw [List.mem_singleton.mp hlink] at hrest
      exact .inr (hleaf rfl hrest)

theorem verifyTree_elsewhere_example : ∃ out',
    verifyTree (pairHalf.elsewhere pairWhole false) 3 pairText = .ok out' ∧
      out'.files = ⟨[(lit "a", hiText), (lit "b", hoText)], by decide⟩ ∧
        out'.dirs = ⟨[([], pairText)], by decide⟩ := by
  have hhalf : verifyTree pairHalf 3 pairText = .ok
      ⟨⟨[(lit "a", hiText), (lit "b", hoText)], by decide⟩, ⟨[([], pairText)], by decide⟩,
        ⟨[(hoText, 2)], by decide⟩, ⟨[(lit "b", [hoText])], by decide⟩⟩ := rfl
  refine verifyTree_elsewhere hhalf (show pairFormats.parse pairText = .ok pairCid from rfl) ?_ ?_ (Nat.le_refl 3)
  · intro cid bytes _ hget
    have hget := Except.ok.inj hget
    refine congrArg Except.ok ?_
    split at hget
    · next h => rw [if_pos h, hget]
    · next h =>
      split at hget
      · next h' => rw [if_neg h, if_pos h', hget]
      · cases hget
  · intro cid hreached hraw
    rcases pair_reaches hreached hraw with rfl | rfl
    · exact .inl ⟨[104, 105], rfl, rfl⟩
    · exact .inl ⟨[104, 111], rfl, rfl⟩

end Estoc.FolderObject
