import Estoc.FolderObject.Reached

/-!
# A verified tree is the tree the root names

What a walk puts down, where it returns, is what stands below the entries it walked. It is followed
through all it writes to: a file adds its own path, and its missing blocks in their order; an entry
adds what stands below its name; a directory adds what stands below its entries. Nothing put down
is written over, since the names of a directory differ and a name has no slash.
-/

set_option linter.unusedSectionVars false

namespace Estoc.FolderObject

open Json (lit)
open Utf16 (JsString)

variable {w : Walk} {cid child reached : Cid} {pb : PbNode} {out out' : VerifiedTree} {depth : Nat}

/-! ## The blocks of a file -/

section Files

variable {path : JsString} {leaves leaves' : List Cid}

/-- Some leaves of a file have been walked, and those missing put down. -/
structure Gaps (w : Walk) (path : JsString) (leaves : List Cid) (out out' : VerifiedTree) : Prop where
  files : out'.files = out.files
  dirs : out'.dirs = out.dirs
  missing : ∀ c, c ∈ out'.missing.keys ↔ c ∈ out.missing.keys ∨ c ∈ w.gaps leaves
  partial_ : ∀ p, out'.partial_.get? p = if p = path ∧ w.gaps leaves ≠ [] then
    some ((out.partial_.get? path).getD [] ++ w.gaps leaves) else out.partial_.get? p
  required : w.leavesOptional = false → w.gaps leaves = []

theorem Gaps.none (hgaps : w.gaps leaves = []) : Gaps w path leaves out out where
  files := rfl
  dirs := rfl
  missing c := by simp [hgaps]
  partial_ p := by simp [hgaps]
  required _ := hgaps

theorem Gaps.append {out'' : VerifiedTree} (h : Gaps w path leaves out out')
    (h' : Gaps w path leaves' out' out'') : Gaps w path (leaves ++ leaves') out out'' := by
  refine ⟨h'.files.trans h.files, h'.dirs.trans h.dirs, fun c => ?_, fun p => ?_, fun hrequired => ?_⟩
  · rw [h'.missing, h.missing, gaps_append, List.mem_append, or_assoc]
  · rw [h'.partial_, gaps_append]
    by_cases hp : p = path
    · subst hp
      rw [h.partial_]
      by_cases hgaps : w.gaps leaves = []
      · simp [hgaps]
      · by_cases hgaps' : w.gaps leaves' = []
        · simp [hgaps, hgaps']
        · simp [hgaps, hgaps']
    · simp [hp, h.partial_]
  · rw [gaps_append, h.required hrequired, h'.required hrequired, List.append_nil]

theorem leaf_ok {size : Nat} (hraw : cid.code = rawCode) (h : w.leaf out cid size path = .ok out') :
    Gaps w path [cid] out out' ∧ w.Proved cid := by
  obtain ⟨found, hget, h⟩ := Checked.bind_eq_ok.mp h
  have hget := thrown_eq_ok.mp hget
  cases found with
  | some bytes =>
    obtain ⟨⟨⟩, hcheck, h⟩ := Checked.bind_eq_ok.mp h
    cases h
    have habsent : w.isAbsent cid = false := by
      rw [Walk.isAbsent, hget]
    refine ⟨.none ?_, proved_of_raw hraw (.inl ⟨bytes, hget, hcheck⟩)⟩
    rw [Walk.gaps, List.filter_cons_of_neg (by rw [habsent]; exact Bool.false_ne_true)]
    rfl
  | none =>
    obtain ⟨hoptional, h⟩ := refuse_bind_eq_ok.mp h
    cases h
    have habsent : w.isAbsent cid = true := by
      rw [Walk.isAbsent, hget]
    have hgaps : w.gaps [cid] = [w.formats.text cid] := by
      rw [Walk.gaps, List.filter_cons_of_pos habsent]
      rfl
    have hoptional : w.leavesOptional = true := by simpa using hoptional
    refine ⟨⟨rfl, rfl, fun c => ?_, fun p => ?_, fun hrequired => ?_⟩,
      proved_of_raw hraw (.inr ⟨hoptional, hraw, habsent⟩)⟩
    · rw [hgaps, List.mem_singleton]
      change c ∈ (out.missing.set _ _).keys ↔ _
      rw [OMap.mem_keys_set]
    · rw [hgaps]
      change (out.partial_.set _ _).get? p = _
      rw [OMap.get?_set]
      by_cases hp : p = path
      · rw [if_pos hp, if_pos ⟨hp, List.cons_ne_nil _ _⟩]
      · rw [if_neg hp, if_neg fun h => hp h.1]
    · rw [hrequired] at hoptional
      cases hoptional

/-- Links walked one after another. -/
theorem walkLinks_ok (ih : ∀ {cid size out out'}, w.walkFileBlocks depth cid size path out = .ok out' →
      ∃ leaves, w.Leaves [cid] leaves ∧ Gaps w path leaves out out' ∧ w.Proved cid)
    (links : List PBLink) {out out' : VerifiedTree}
    (h : links.foldlM (fun out link => w.walkFileBlocks depth link.Hash (Walk.linkSize link) path out) out =
      .ok out') : ∃ leaves, w.Leaves (links.map PBLink.Hash) leaves ∧ Gaps w path leaves out out' ∧
        ∀ link ∈ links, w.Proved link.Hash := by
  induction links generalizing out with
  | nil =>
    cases h
    exact ⟨[], .nil, .none rfl, fun _ hlink => by cases hlink⟩
  | cons link rest ihlinks =>
    obtain ⟨next, hnext, hrest⟩ := foldlM_cons_eq_ok.mp h
    obtain ⟨leaves, hleaves, hgaps, hproved⟩ := ih hnext
    obtain ⟨leaves', hleaves', hgaps', hproved'⟩ := ihlinks hrest
    exact ⟨leaves ++ leaves', hleaves.append hleaves', hgaps.append hgaps',
      List.forall_mem_cons.mpr ⟨hproved, hproved'⟩⟩

/-- A file of links. -/
theorem fileNode_ok (ih : ∀ {cid size out out'}, w.walkFileBlocks depth cid size path out = .ok out' →
      ∃ leaves, w.Leaves [cid] leaves ∧ Gaps w path leaves out out' ∧ w.Proved cid)
    (hpb : w.IsNode cid pb) (htype : pb.type = .file)
    (h : pb.node.Links.foldlM
      (fun out link => w.walkFileBlocks depth link.Hash (Walk.linkSize link) path out) out = .ok out') :
    ∃ leaves, w.Leaves [cid] leaves ∧ Gaps w path leaves out out' ∧ w.Proved cid := by
  obtain ⟨leaves, hleaves, hgaps, hproved⟩ := walkLinks_ok ih _ h
  refine ⟨leaves, .node hpb htype ?_, hgaps, proved_of_node hpb hproved⟩
  rw [List.append_nil]
  exact hleaves

theorem walkFileBlocks_ok {size : Nat} (h : w.walkFileBlocks depth cid size path out = .ok out') :
    ∃ leaves, w.Leaves [cid] leaves ∧ Gaps w path leaves out out' ∧ w.Proved cid := by
  induction depth generalizing cid size out out' with
  | zero => cases h
  | succ depth ih =>
    rw [Walk.walkFileBlocks] at h
    split at h
    · next hraw =>
      obtain ⟨hgaps, hproved⟩ := leaf_ok hraw h
      exact ⟨[cid], .raw hraw .nil, hgaps, hproved⟩
    · obtain ⟨pb, hpb, h⟩ := Checked.bind_eq_ok.mp h
      obtain ⟨htype, h⟩ := refuse_bind_eq_ok.mp h
      exact fileNode_ok ih hpb (not_not.mp htype) h

end Files

/-! ## What has been put down -/

/-- What stands below an entry at some names. -/
def under (w : Walk) (at_ : List JsString) (cid : Cid) (names : List JsString) (reached : Cid)
    (kind : Kind) : Prop := ∃ rest, names = at_ ++ rest ∧ w.Below cid rest reached kind

/-- What has been put down is what stands at these names. -/
structure Records (w : Walk) (out : VerifiedTree) (R : List JsString → Cid → Kind → Prop) : Prop where
  named : ∀ {names reached kind}, R names reached kind → ∀ name ∈ names, Name name
  files : ∀ p c, out.files.get? p = some c ↔
    ∃ names reached, R names reached .file ∧ p = join names ∧ c = w.formats.text reached
  dirs : ∀ p c, out.dirs.get? p = some c ↔
    ∃ names reached, R names reached .dir ∧ p = join names ∧ c = w.formats.text reached
  partial_ : ∀ p gaps, out.partial_.get? p = some gaps ↔ ∃ names reached leaves, R names reached .file ∧
    p = join names ∧ w.Leaves [reached] leaves ∧ gaps = w.gaps leaves ∧ gaps ≠ []
  missing : ∀ c, c ∈ out.missing.keys ↔
    ∃ names reached leaves, R names reached .file ∧ w.Leaves [reached] leaves ∧ c ∈ w.gaps leaves

theorem Records.congr {R R' : List JsString → Cid → Kind → Prop} (h : Records w out R)
    (hR : ∀ names reached kind, R' names reached kind ↔ R names reached kind) : Records w out R' := by
  have heq : R' = R := funext fun names => funext fun reached => funext fun kind =>
    propext (hR names reached kind)
  rw [heq]
  exact h

theorem records_empty : Records w .empty fun _ _ _ => False where
  named h := h.elim
  files p c := by
    refine iff_of_false (fun h => ?_) ?_
    · cases (OMap.get?_empty p).symm.trans h
    · rintro ⟨_, _, h, -⟩
      exact h
  dirs p c := by
    refine iff_of_false (fun h => ?_) ?_
    · cases (OMap.get?_empty p).symm.trans h
    · rintro ⟨_, _, h, -⟩
      exact h
  partial_ p gaps := by
    refine iff_of_false (fun h => ?_) ?_
    · cases (OMap.get?_empty p).symm.trans h
    · rintro ⟨_, _, _, h, -⟩
      exact h
  missing c := by
    refine iff_of_false (fun h => ?_) ?_
    · cases h
    · rintro ⟨_, _, _, h, -⟩
      exact h

section Record

variable {R : List JsString → Cid → Kind → Prop} {at_ : List JsString}

/-- A path set to what stands there, nothing else of its kind standing there before. -/
theorem get?_set_records {m : OMap JsString JsString} (kind : Kind) (hat : ∀ name ∈ at_, Name name)
    (hnamed : ∀ {names reached kind}, R names reached kind → ∀ name ∈ names, Name name)
    (hm : ∀ p c, m.get? p = some c ↔
      ∃ names reached, R names reached kind ∧ p = join names ∧ c = w.formats.text reached)
    (hfresh : ∀ reached, ¬ R at_ reached kind) (p c : JsString) :
    (m.set (join at_) (w.formats.text cid)).get? p = some c ↔ ∃ names reached,
      (R names reached kind ∨ (names = at_ ∧ reached = cid)) ∧ p = join names ∧
        c = w.formats.text reached := by
  rw [OMap.get?_set]
  constructor
  · intro h
    split at h
    · next hp => exact ⟨at_, cid, .inr ⟨rfl, rfl⟩, hp, (Option.some.inj h).symm⟩
    · obtain ⟨names, reached, hR, hp, hc⟩ := (hm p c).mp h
      exact ⟨names, reached, .inl hR, hp, hc⟩
  · rintro ⟨names, reached, hR | ⟨rfl, rfl⟩, rfl, rfl⟩
    · rw [if_neg]
      · exact (hm _ _).mpr ⟨names, reached, hR, rfl, rfl⟩
      · intro hjoin
        obtain rfl := names_of_join (hnamed hR) hat hjoin
        exact hfresh reached hR
    · rw [if_pos rfl]

/-- A file put down with what is missing of it. -/
theorem Records.file {leaves : List Cid} (h : Records w out R) (hat : ∀ name ∈ at_, Name name)
    (hfresh : ∀ reached kind, ¬ R at_ reached kind) (hgaps : Gaps w (join at_) leaves out out')
    (hleaves : w.Leaves [cid] leaves) (hfile : w.IsFile cid) :
    Records w (w.addFile out' (join at_) cid)
      fun names reached kind => R names reached kind ∨ under w at_ cid names reached kind := by
  have hunder (names : List JsString) (reached : Cid) (kind : Kind) :
      under w at_ cid names reached kind ↔ names = at_ ∧ reached = cid ∧ kind = .file := by
    constructor
    · rintro ⟨rest, rfl, hbelow⟩
      obtain ⟨rfl, rfl, rfl⟩ := (below_of_file hfile).mp hbelow
      exact ⟨List.append_nil _, rfl, rfl⟩
    · rintro ⟨rfl, rfl, rfl⟩
      exact ⟨[], (List.append_nil _).symm, .file hfile⟩
  refine ⟨?_, fun p c => ?_, fun p c => ?_, fun p gaps => ?_, fun c => ?_⟩
  · rintro names reached kind (hR | hbelow)
    · exact h.named hR
    · rw [((hunder _ _ _).mp hbelow).1]
      exact hat
  · change (out'.files.set _ _).get? p = some c ↔ _
    rw [hgaps.files, get?_set_records .file hat h.named h.files fun reached => hfresh reached _]
    simp only [hunder, and_true]
  · change out'.dirs.get? p = some c ↔ _
    rw [hgaps.dirs, h.dirs]
    simp only [hunder, reduceCtorEq, and_false, or_false]
  · change out'.partial_.get? p = some gaps ↔ _
    rw [hgaps.partial_]
    have hnone : out.partial_.get? (join at_) = none := by
      cases hsome : out.partial_.get? (join at_) with
      | none => rfl
      | some gaps =>
        obtain ⟨names, reached, _, hR, hjoin, -⟩ := (h.partial_ _ _).mp hsome
        obtain rfl := names_of_join hat (h.named hR) hjoin
        exact absurd hR (hfresh _ _)
    rw [hnone, Option.getD_none, List.nil_append]
    constructor
    · intro hget
      split at hget
      · next hp =>
        obtain rfl := Option.some.inj hget
        exact ⟨at_, cid, leaves, .inr ((hunder _ _ _).mpr ⟨rfl, rfl, rfl⟩), hp.1, hleaves, rfl, hp.2⟩
      · obtain ⟨names, reached, found, hR, hrest⟩ := (h.partial_ p gaps).mp hget
        exact ⟨names, reached, found, .inl hR, hrest⟩
    · rintro ⟨names, reached, found, hR | hbelow, rfl, hfound, rfl, hne⟩
      · rw [if_neg]
        · exact (h.partial_ _ _).mpr ⟨names, reached, found, hR, rfl, hfound, rfl, hne⟩
        · intro hp
          obtain rfl := names_of_join (h.named hR) hat hp.1
          exact hfresh _ _ hR
      · obtain ⟨rfl, rfl, -⟩ := (hunder _ _ _).mp hbelow
        obtain rfl := hleaves.unique hfound
        rw [if_pos ⟨rfl, hne⟩]
  · change c ∈ out'.missing.keys ↔ _
    rw [hgaps.missing, h.missing]
    constructor
    · rintro (⟨names, reached, found, hR, hrest⟩ | hmem)
      · exact ⟨names, reached, found, .inl hR, hrest⟩
      · exact ⟨at_, cid, leaves, .inr ((hunder _ _ _).mpr ⟨rfl, rfl, rfl⟩), hleaves, hmem⟩
    · rintro ⟨names, reached, found, hR | hbelow, hfound, hmem⟩
      · exact .inl ⟨names, reached, found, hR, hfound, hmem⟩
      · obtain ⟨rfl, rfl, -⟩ := (hunder _ _ _).mp hbelow
        rw [← hleaves.unique hfound] at hmem
        exact .inr hmem

/-- A directory put down. -/
theorem Records.dir (h : Records w out R) (hat : ∀ name ∈ at_, Name name)
    (hfresh : ∀ reached kind, ¬ R at_ reached kind) :
    Records w (w.addDir out (prefixOf at_) cid)
      fun names reached kind => R names reached kind ∨ (names = at_ ∧ reached = cid ∧ kind = .dir) := by
  refine ⟨?_, fun p c => ?_, fun p c => ?_, fun p gaps => ?_, fun c => ?_⟩
  · rintro names reached kind (hR | ⟨rfl, -, -⟩)
    · exact h.named hR
    · exact hat
  · change out.files.get? p = some c ↔ _
    rw [h.files]
    simp only [reduceCtorEq, and_false, or_false]
  · change (out.dirs.set (Walk.directoryPath (prefixOf at_)) _).get? p = some c ↔ _
    rw [directoryPath_prefixOf, get?_set_records .dir hat h.named h.dirs fun reached => hfresh reached _]
    simp only [and_true]
  · change out.partial_.get? p = some gaps ↔ _
    rw [h.partial_]
    simp only [reduceCtorEq, and_false, or_false]
  · change c ∈ out.missing.keys ↔ _
    rw [h.missing]
    simp only [reduceCtorEq, and_false, or_false]

end Record

/-! ## The entries of a directory -/

section Entries

variable {R : List JsString → Cid → Kind → Prop} {pre : List JsString} {walked walked' : Walked}
  {entries : List (JsString × Cid)} {name : JsString}

/-- What was there and what stands below some entries of a directory. -/
def withEntries (w : Walk) (R : List JsString → Cid → Kind → Prop) (pre : List JsString)
    (entries : List (JsString × Cid)) (names : List JsString) (reached : Cid) (kind : Kind) : Prop :=
  R names reached kind ∨ ∃ entry ∈ entries, under w (pre ++ [entry.1]) entry.2 names reached kind

/-- Some entries of a directory have been walked. -/
structure Level (w : Walk) (R : List JsString → Cid → Kind → Prop) (pre : List JsString)
    (entries : List (JsString × Cid)) (walked : Walked) : Prop where
  valid : ∀ name ∈ pre, Name name
  fresh : ∀ name names reached kind, ¬ R (pre ++ name :: names) reached kind
  seen : walked.seen = entries.map Prod.fst
  nodup : walked.seen.Nodup
  records : Records w walked.out (withEntries w R pre entries)
  sound : ∀ entry ∈ entries, Name entry.1 ∧ w.Proved entry.2 ∧ w.Proper entry.2

theorem withEntries_concat {names : List JsString} {kind : Kind} :
    withEntries w R pre (entries ++ [(name, child)]) names reached kind ↔
      withEntries w R pre entries names reached kind ∨
        under w (pre ++ [name]) child names reached kind := by
  unfold withEntries
  simp only [List.mem_append, List.mem_singleton, or_and_right, exists_or, exists_eq_left, or_assoc]

/-- Nothing stands at a name not seen, nor below it. -/
theorem Level.free (h : Level w R pre entries walked) (hname : name ∉ walked.seen)
    (names : List JsString) (reached : Cid) (kind : Kind) :
    ¬ withEntries w R pre entries (pre ++ [name] ++ names) reached kind := by
  rintro (hR | ⟨entry, hentry, rest, heq, -⟩)
  · refine h.fresh name names reached kind ?_
    rw [List.append_assoc] at hR
    exact hR
  · rw [List.append_assoc, List.append_assoc, List.append_cancel_left_eq] at heq
    obtain ⟨rfl, -⟩ := List.cons.inj heq
    rw [h.seen] at hname
    exact hname (List.mem_map_of_mem hentry)

/-- One more entry. -/
theorem Level.next (h : Level w R pre entries walked) (hname : Name name) (hseen : name ∉ walked.seen)
    (hrecords : Records w out fun names reached kind => withEntries w R pre entries names reached kind ∨
      under w (pre ++ [name]) child names reached kind)
    (hproved : w.Proved child) (hproper : w.Proper child) :
    Level w R pre (entries ++ [(name, child)]) ⟨out, walked.seen ++ [name]⟩ where
  valid := h.valid
  fresh := h.fresh
  seen := by
    rw [List.map_append, ← h.seen]
    rfl
  nodup := List.nodup_append'.mpr ⟨h.nodup, List.nodup_singleton _, List.disjoint_singleton.mpr hseen⟩
  records := hrecords.congr fun _ _ _ => withEntries_concat
  sound entry hentry := by
    rcases List.mem_append.mp hentry with hentry | hentry
    · exact h.sound entry hentry
    · rw [List.mem_singleton.mp hentry]
      exact ⟨hname, hproved, hproper⟩

theorem proper_of_file (hfile : w.IsFile cid) : w.Proper cid := by
  intro names reached pb hbelow
  obtain ⟨-, -, hkind⟩ := (below_of_file hfile).mp hbelow
  cases hkind

/-- Entries told apart by name are the entries of their directory. -/
theorem proper_of_dir (hdir : w.IsDir cid pb) (hnodup : (entries.map Prod.fst).Nodup)
    (hentries : ∀ name child, w.EntryOf pb name child ↔ (name, child) ∈ entries)
    (hsound : ∀ entry ∈ entries, Name entry.1 ∧ w.Proper entry.2) : w.Proper cid := by
  intro names reached found hbelow hfound
  rcases (below_of_dir hdir).mp hbelow with ⟨rfl, rfl, -⟩ | ⟨name, child, rest, rfl, hentry, hbelow⟩
  · obtain rfl := hdir.1.unique hfound
    refine ⟨fun name child hentry => (hsound _ ((hentries name child).mp hentry)).1,
      fun name child child' hentry hentry' => ?_⟩
    have hsame := List.inj_on_of_nodup_map hnodup ((hentries _ _).mp hentry)
      ((hentries _ _).mp hentry') rfl
    exact (Prod.mk.inj hsame).2
  · exact (hsound _ ((hentries name child).mp hentry)).2 rest reached found hbelow hfound

end Entries

/-! ## The walks -/

section Walks

variable {R : List JsString → Cid → Kind → Prop} {pre : List JsString} {walked walked' : Walked}
  {entries : List (JsString × Cid)} {name : JsString}

/-- What a walk of an entry comes to. -/
def EntryWalks (w : Walk) (depth : Nat) : Prop :=
  ∀ {link name pre walked walked' R entries}, Level w R pre entries walked →
    w.walkEntry depth link name (prefixOf pre) walked = .ok walked' →
    Level w R pre (entries ++ [(name, link.Hash)]) walked'

/-- What a walk of a shard comes to: its entries, behind those walked before. -/
def ShardWalks (w : Walk) (depth : Nat) : Prop :=
  ∀ {pb pre walked walked' R entries}, Level w R pre entries walked → w.IsNode pb.cid pb →
    w.walkShard depth pb (prefixOf pre) walked = .ok walked' →
    w.Proved pb.cid ∧ ∃ more, Level w R pre (entries ++ more) walked' ∧
      ∀ name child, w.ShardEntry pb name child ↔ (name, child) ∈ more

/-- What a walk of a directory comes to. -/
def DirWalks (w : Walk) (depth : Nat) : Prop :=
  ∀ {pb pre out out' R}, Records w out R → (∀ name ∈ pre, Name name) →
    (∀ names reached kind, ¬ R (pre ++ names) reached kind) → w.IsDir pb.cid pb →
    w.walkDir depth pb (prefixOf pre) out = .ok out' →
    Records w out' (fun names reached kind => R names reached kind ∨
      under w pre pb.cid names reached kind) ∧ w.Proved pb.cid ∧ w.Proper pb.cid

theorem entryWalks_succ (hdirs : DirWalks w depth) : EntryWalks w (depth + 1) := by
  intro link name pre walked walked' R entries hlevel h
  obtain ⟨hname, hseen, out, rfl, hcase⟩ := walkEntry_eq_ok.mp h
  have hat : ∀ n ∈ pre ++ [name], Name n := by
    intro n hn
    rcases List.mem_append.mp hn with hn | hn
    · exact hlevel.valid n hn
    · rw [List.mem_singleton.mp hn]
      exact hname
  have hfresh (reached : Cid) (kind : Kind) :
      ¬ withEntries w R pre entries (pre ++ [name]) reached kind := by
    have hfree := hlevel.free hseen [] reached kind
    rwa [List.append_nil] at hfree
  rw [← join_concat] at hcase
  rcases hcase with ⟨hraw, kept, rfl, hkept⟩ | ⟨pb, hpb, ⟨htype, hout⟩ | ⟨htype, kept, rfl, hkept⟩⟩
  · obtain ⟨leaves, hleaves, hgaps, hproved⟩ := walkFileBlocks_ok hkept
    have hrecords := hlevel.records.file hat hfresh hgaps hleaves (.inl hraw)
    exact hlevel.next hname hseen hrecords hproved (proper_of_file (.inl hraw))
  · rw [join_concat, ← prefixOf_concat] at hout
    have hcid := Walk.IsNode.cid_eq hpb
    have hdir : w.IsDir pb.cid pb := ⟨by rw [hcid]; exact hpb, htype⟩
    obtain ⟨hrecords, hproved, hproper⟩ :=
      hdirs hlevel.records hat (hlevel.free hseen) hdir hout
    rw [hcid] at hrecords hproved hproper
    exact hlevel.next hname hseen hrecords hproved hproper
  · obtain ⟨leaves, hleaves, hgaps, hproved⟩ := fileNode_ok walkFileBlocks_ok hpb htype hkept
    have hfile : w.IsFile link.Hash := .inr ⟨pb, hpb, htype⟩
    have hrecords := hlevel.records.file hat hfresh hgaps hleaves hfile
    exact hlevel.next hname hseen hrecords hproved (proper_of_file hfile)

/-- The entries one link of a shard stands for. -/
def OfLink (w : Walk) (link : PBLink) (name : JsString) (child : Cid) : Prop :=
  (2 < (Walk.linkName link).length ∧ name = (Walk.linkName link).drop 2 ∧ child = link.Hash) ∨
    ((Walk.linkName link).length = 2 ∧ ∃ sub, w.IsNode link.Hash sub ∧ w.ShardEntry sub name child)

theorem shardEntry_iff : w.ShardEntry pb name child ↔ ∃ link ∈ pb.node.Links, OfLink w link name child := by
  constructor
  · intro h
    cases h with
    | here mem long => exact ⟨_, mem, .inl ⟨long, rfl, rfl⟩⟩
    | under mem short node entry => exact ⟨_, mem, .inr ⟨short, _, node, entry⟩⟩
  · rintro ⟨link, hlink, ⟨hlong, rfl, rfl⟩ | ⟨hshort, sub, hsub, hentry⟩⟩
    · exact .here hlink hlong
    · exact .under hlink hshort hsub hentry

/-- Links of a shard walked one after another. -/
theorem shardLinks_ok (hentries : EntryWalks w depth) (hshards : ShardWalks w depth)
    (links : List PBLink) (hlevel : Level w R pre entries walked)
    (h : links.foldlM (w.shardLink depth (prefixOf pre)) walked = .ok walked') :
    (∀ link ∈ links, w.Proved link.Hash) ∧ ∃ more, Level w R pre (entries ++ more) walked' ∧
      ∀ name child, (∃ link ∈ links, OfLink w link name child) ↔ (name, child) ∈ more := by
  induction links generalizing walked entries with
  | nil =>
    cases h
    refine ⟨fun _ hlink => (List.not_mem_nil hlink).elim, [], ?_, fun name child => ?_⟩
    · rw [List.append_nil]
      exact hlevel
    · exact iff_of_false (fun ⟨_, hlink, _⟩ => List.not_mem_nil hlink) List.not_mem_nil
  | cons link rest ih =>
    obtain ⟨next, hnext, hrest⟩ := foldlM_cons_eq_ok.mp h
    -- what the first link adds, and that it is proved
    have hfirst : w.Proved link.Hash ∧ ∃ more, Level w R pre (entries ++ more) next ∧
        ∀ name child, OfLink w link name child ↔ (name, child) ∈ more := by
      rcases shardLink_eq_ok.mp hnext with ⟨hshort, sub, hsub, -, hnext⟩ | ⟨hlong, hnext⟩
      · have hcid := Walk.IsNode.cid_eq hsub
        obtain ⟨hproved, more, hlevel', hmore⟩ := hshards hlevel (by rw [hcid]; exact hsub) hnext
        rw [hcid] at hproved
        refine ⟨hproved, more, hlevel', fun name child => ?_⟩
        rw [← hmore]
        constructor
        · rintro (⟨hlong, -⟩ | ⟨-, sub', hsub', hentry⟩)
          · omega
          · rwa [Walk.IsNode.unique hsub' hsub] at hentry
        · exact fun hentry => .inr ⟨hshort, sub, hsub, hentry⟩
      · have hlevel' := hentries hlevel hnext
        refine ⟨(hlevel'.sound _ (List.mem_append_right _ (List.mem_singleton_self _))).2.1,
          [_], hlevel', fun name child => ?_⟩
        rw [List.mem_singleton, Prod.mk.injEq]
        constructor
        · rintro (⟨-, hname, hchild⟩ | ⟨hshort, -⟩)
          · exact ⟨hname, hchild⟩
          · omega
        · exact fun hentry => .inl ⟨hlong, hentry⟩
    obtain ⟨hproved, more, hlevel', hmore⟩ := hfirst
    obtain ⟨hproved', more', hlevel'', hmore'⟩ := ih hlevel' hrest
    refine ⟨List.forall_mem_cons.mpr ⟨hproved, hproved'⟩, more ++ more', ?_, fun name child => ?_⟩
    · rw [← List.append_assoc]
      exact hlevel''
    · rw [List.exists_mem_cons_iff, hmore, hmore', List.mem_append]

theorem shardWalks_succ (hentries : EntryWalks w depth) (hshards : ShardWalks w depth) :
    ShardWalks w (depth + 1) := by
  intro pb pre walked walked' R entries hlevel hpb h
  rw [Walk.walkShard_succ] at h
  obtain ⟨hproved, more, hlevel', hmore⟩ := shardLinks_ok hentries hshards _ hlevel h
  exact ⟨proved_of_node hpb hproved, more, hlevel', fun name child => shardEntry_iff.trans (hmore name child)⟩

/-- Links of a flat directory walked one after another. -/
theorem flatLinks_ok (hentries : EntryWalks w depth) (links : List PBLink)
    (hlevel : Level w R pre entries walked)
    (h : links.foldlM (fun walked link =>
      w.walkEntry depth link (Walk.linkName link) (prefixOf pre) walked) walked = .ok walked') :
    Level w R pre (entries ++ links.map fun link => (Walk.linkName link, link.Hash)) walked' := by
  induction links generalizing walked entries with
  | nil =>
    cases h
    rw [List.map_nil, List.append_nil]
    exact hlevel
  | cons link rest ih =>
    obtain ⟨next, hnext, hrest⟩ := foldlM_cons_eq_ok.mp h
    have hlevel' := ih (hentries hlevel hnext) hrest
    rw [List.append_assoc] at hlevel'
    exact hlevel'

/-- A directory is put down before its entries are. -/
theorem level_dir (cid : Cid) (hrecords : Records w out R) (hpre : ∀ name ∈ pre, Name name)
    (hfresh : ∀ names reached kind, ¬ R (pre ++ names) reached kind) :
    Level w (fun names reached kind => R names reached kind ∨ (names = pre ∧ reached = cid ∧ kind = .dir))
      pre [] ⟨w.addDir out (prefixOf pre) cid, []⟩ where
  valid := hpre
  fresh name names reached kind := by
    rintro (hR | ⟨hnames, -⟩)
    · exact hfresh _ _ _ hR
    · exact List.cons_ne_nil _ _ (List.append_right_eq_self.mp hnames)
  seen := rfl
  nodup := List.nodup_nil
  records := by
    have hdir : Records w (w.addDir out (prefixOf pre) cid) _ := hrecords.dir hpre fun reached kind hR =>
      hfresh [] reached kind (by rw [List.append_nil]; exact hR)
    refine hdir.congr fun names reached kind => ?_
    constructor
    · rintro (h | ⟨_, hentry, -⟩)
      · exact h
      · exact (List.not_mem_nil hentry).elim
    · exact .inl
  sound _ hentry := (List.not_mem_nil hentry).elim

/-- A directory whose entries have been walked is what stands below it. -/
theorem dir_of_level (hdir : w.IsDir cid pb)
    (hlevel : Level w (fun names reached kind => R names reached kind ∨
      (names = pre ∧ reached = cid ∧ kind = .dir)) pre entries walked)
    (hentries : ∀ name child, w.EntryOf pb name child ↔ (name, child) ∈ entries) :
    Records w walked.out (fun names reached kind => R names reached kind ∨
      under w pre cid names reached kind) ∧ w.Proper cid := by
  refine ⟨hlevel.records.congr fun names reached kind => ?_, ?_⟩
  · unfold withEntries
    rw [or_assoc]
    refine or_congr_right ⟨?_, ?_⟩
    · rintro ⟨rest, rfl, hbelow⟩
      rcases (below_of_dir hdir).mp hbelow with ⟨rfl, hself⟩ | ⟨name, child, rest, rfl, hentry, hbelow⟩
      · exact .inl ⟨List.append_nil _, hself⟩
      · exact .inr ⟨(name, child), (hentries _ _).mp hentry, rest, by rw [List.append_assoc]; rfl, hbelow⟩
    · rintro (⟨rfl, rfl, rfl⟩ | ⟨⟨name, child⟩, hentry, rest, rfl, hbelow⟩)
      · exact ⟨[], (List.append_nil _).symm, .dir hdir⟩
      · exact ⟨name :: rest, by rw [List.append_assoc]; rfl, .entry hdir ((hentries _ _).mpr hentry) hbelow⟩
  · have hnodup := hlevel.nodup
    rw [hlevel.seen] at hnodup
    exact proper_of_dir hdir hnodup hentries fun entry hentry =>
      ⟨(hlevel.sound entry hentry).1, (hlevel.sound entry hentry).2.2⟩

theorem dirWalks_succ (hentries : EntryWalks w depth) (hshards : ShardWalks w depth) :
    DirWalks w (depth + 1) := by
  intro pb pre out out' R hrecords hpre hfresh hdir h
  have hlevel := level_dir pb.cid hrecords hpre hfresh
  obtain ⟨walked, rfl, ⟨htype, -, hwalked⟩ | ⟨htype, hwalked⟩⟩ := walkDir_eq_ok.mp h
  · have hlevel' := flatLinks_ok hentries _ hlevel hwalked
    rw [List.nil_append] at hlevel'
    have hof (name : JsString) (child : Cid) : w.EntryOf pb name child ↔
        (name, child) ∈ pb.node.Links.map fun link => (Walk.linkName link, link.Hash) := by
      rw [Walk.EntryOf, if_pos htype, List.mem_map]
      simp only [Prod.mk.injEq]
    obtain ⟨hrecords', hproper⟩ := dir_of_level hdir hlevel' hof
    refine ⟨hrecords', proved_of_node hdir.1 fun link hlink => ?_, hproper⟩
    exact (hlevel'.sound _ (List.mem_map_of_mem hlink)).2.1
  · obtain ⟨hproved, more, hlevel', hmore⟩ := hshards hlevel hdir.1 hwalked
    have hof (name : JsString) (child : Cid) : w.EntryOf pb name child ↔ (name, child) ∈ more := by
      rw [Walk.EntryOf, if_neg htype]
      exact hmore name child
    obtain ⟨hrecords', hproper⟩ := dir_of_level hdir hlevel' hof
    exact ⟨hrecords', hproved, hproper⟩

theorem walks : EntryWalks w depth ∧ ShardWalks w depth ∧ DirWalks w depth := by
  induction depth with
  | zero =>
    refine ⟨?_, ?_, ?_⟩
    · intro _ _ _ _ _ _ _ _ h
      cases h
    · intro _ _ _ _ _ _ _ _ h
      cases h
    · intro _ _ _ _ _ _ _ _ _ h
      cases h
  | succ depth ih =>
    obtain ⟨hentries, hshards, hdirs⟩ := ih
    exact ⟨entryWalks_succ hdirs, shardWalks_succ hentries hshards, dirWalks_succ hentries hshards⟩

end Walks

/-! ## The tree -/

/-- A listing of what stands below a root: all it reaches is proved, every file and directory is at
its path and nothing else is, and of each file there are the leaves that are not there; so where none
may be absent, none are listed. -/
structure TreeOf (w : Walk) (root : Cid) (out : VerifiedTree) : Prop where
  dir : ∃ pb, w.IsDir root pb
  proved : w.Proved root
  named : ∀ {names reached kind}, w.Below root names reached kind → ∀ name ∈ names, Name name
  unique : ∀ {names reached reached' kind kind'}, w.Below root names reached kind →
    w.Below root names reached' kind' → reached = reached' ∧ kind = kind'
  files : ∀ p c, out.files.get? p = some c ↔
    ∃ names reached, w.Below root names reached .file ∧ p = join names ∧ c = w.formats.text reached
  dirs : ∀ p c, out.dirs.get? p = some c ↔
    ∃ names reached, w.Below root names reached .dir ∧ p = join names ∧ c = w.formats.text reached
  partial_ : ∀ p gaps, out.partial_.get? p = some gaps ↔ ∃ names reached leaves,
    w.Below root names reached .file ∧ p = join names ∧ w.Leaves [reached] leaves ∧
      gaps = w.gaps leaves ∧ gaps ≠ []
  missing : ∀ c, c ∈ out.missing.keys ↔ ∃ names reached leaves,
    w.Below root names reached .file ∧ w.Leaves [reached] leaves ∧ c ∈ w.gaps leaves
  above : ∀ {names rest reached kind}, rest ≠ [] → w.Below root (names ++ rest) reached kind →
    ∃ dir, w.Below root names dir .dir
  whole : w.leavesOptional = false → out.missing.keys = [] ∧ ∀ p, out.partial_.get? p = none

/-- At some names stands one thing, where every name is of one entry. -/
theorem below_unique {names : List JsString} {root reached reached' : Cid} {kind kind' : Kind}
    (hproper : w.Proper root) (h : w.Below root names reached kind)
    (h' : w.Below root names reached' kind') : reached = reached' ∧ kind = kind' := by
  induction h with
  | file hfile =>
    obtain ⟨-, rfl, rfl⟩ := (below_of_file hfile).mp h'
    exact ⟨rfl, rfl⟩
  | dir hdir =>
    rcases (below_of_dir hdir).mp h' with ⟨-, rfl, rfl⟩ | ⟨_, _, _, hnil, -⟩
    · exact ⟨rfl, rfl⟩
    · cases hnil
  | @entry root child _ pb name names _ hdir hentry _ ih =>
    rcases (below_of_dir hdir).mp h' with ⟨hnil, -⟩ | ⟨name', child', rest, hcons, hentry', hbelow'⟩
    · cases hnil
    · obtain ⟨rfl, rfl⟩ := List.cons.inj hcons
      have hplain := hproper [] root pb (.dir hdir) hdir.1
      obtain rfl := hplain.2 name child child' hentry hentry'
      refine ih (fun below reached' found hbelow hfound => ?_) hbelow'
      exact hproper (name :: below) reached' found (.entry hdir hentry hbelow) hfound

/-- What `verifyTree` returns is the listing of the tree the root names. -/
theorem verifyTree_proves {root : JsString} (h : verifyTree w depth root = .ok out) :
    ∃ rootCid, w.formats.parse root = .ok rootCid ∧ TreeOf w rootCid out := by
  obtain ⟨rootCid, hroot, h⟩ := Checked.bind_eq_ok.mp h
  obtain ⟨-, h⟩ := refuse_bind_eq_ok.mp h
  obtain ⟨pb, hpb, h⟩ := Checked.bind_eq_ok.mp h
  obtain ⟨htype, h⟩ := refuse_bind_eq_ok.mp h
  have hcid := Walk.IsNode.cid_eq hpb
  have hdir : w.IsDir rootCid pb := ⟨hpb, eq_true_of_ne_false htype⟩
  obtain ⟨hrecords, hproved, hproper⟩ := walks.2.2 records_empty (fun _ hname => (List.not_mem_nil hname).elim)
    (fun _ _ _ h => h) (by rw [hcid]; exact hdir) h
  rw [hcid] at hrecords hproved hproper
  have hrecords : Records w out (w.Below rootCid) := hrecords.congr fun names reached kind => by
    simp only [under, List.nil_append, exists_eq_left', false_or]
  have hgaps {names : List JsString} {reached : Cid} {leaves : List Cid}
      (hrequired : w.leavesOptional = false) (hbelow : w.Below rootCid names reached .file)
      (hleaves : w.Leaves [reached] leaves) : w.gaps leaves = [] := by
    refine gaps_of_required (fun leaf hleaf => ?_) hrequired hleaves
    exact hproved leaf ((reaches_of_below hbelow).trans hleaf)
  refine ⟨rootCid, thrown_eq_ok.mp hroot, ⟨pb, hdir⟩, hproved, hrecords.named, below_unique hproper,
    hrecords.files, hrecords.dirs, hrecords.partial_, hrecords.missing, dir_above, fun hrequired => ⟨?_, ?_⟩⟩
  · refine List.eq_nil_iff_forall_not_mem.mpr fun c hc => ?_
    obtain ⟨names, reached, leaves, hbelow, hleaves, hmem⟩ := (hrecords.missing c).mp hc
    rw [hgaps hrequired hbelow hleaves] at hmem
    cases hmem
  · intro p
    refine Option.eq_none_iff_forall_ne_some.mpr fun gaps hget => ?_
    obtain ⟨names, reached, leaves, hbelow, -, hleaves, heq, hne⟩ := (hrecords.partial_ p gaps).mp hget
    exact hne (heq.trans (hgaps hrequired hbelow hleaves))

/-! A directory of two small files. -/

def hiText : JsString := lit "bafkreiepinbumzepnoln7co5vea4kf3lcctnqolb3u6bvsellgznymt2uq"

def hoText : JsString := lit "bafkreifiehdc5aie7biz2y43jqeurlwomqnrip3gah5biwmtxmxcy4uz2q"

def pairText : JsString := lit "bafybeibvrg324oue34pnczdahbfkaothjcor4g5ggafj5ctre7kz2gst74"

def hiCid : Cid := ⟨1, rawCode, sha256Code,
  [143, 67, 67, 70, 100, 143, 107, 150, 223, 137, 221, 169, 1, 197, 23, 107,
    16, 166, 216, 57, 97, 221, 60, 26, 200, 139, 89, 178, 220, 50, 122, 164]⟩

def hoCid : Cid := ⟨1, rawCode, sha256Code,
  [168, 33, 198, 46, 129, 4, 248, 81, 157, 99, 155, 76, 9, 72, 174, 206,
    100, 27, 20, 63, 102, 1, 250, 20, 89, 147, 187, 46, 44, 114, 153, 212]⟩

def pairCid : Cid := ⟨1, dagPbCode, sha256Code,
  [53, 137, 183, 174, 58, 132, 223, 30, 209, 100, 96, 56, 74, 160, 58, 103,
    72, 157, 30, 27, 166, 48, 10, 158, 138, 113, 39, 213, 157, 26, 83, 255]⟩

def pairBytes : List UInt8 :=
  [18, 43, 10, 36, 1, 85, 18, 32] ++ hiCid.digest ++ [18, 1, 97, 24, 2] ++
    [18, 43, 10, 36, 1, 85, 18, 32] ++ hoCid.digest ++ [18, 1, 98, 24, 2] ++ [10, 2, 8, 1]

def pairFormats : Formats where
  sha256 bytes := if bytes = [104, 105] then hiCid.digest else
    if bytes = [104, 111] then hoCid.digest else if bytes = pairBytes then pairCid.digest else []
  text cid := if cid = hiCid then hiText else if cid = hoCid then hoText else
    if cid = pairCid then pairText else []
  parse text := if text = pairText then .ok pairCid else .error []
  decode bytes := if bytes = pairBytes then
    .ok ⟨some [8, 1], [⟨hiCid, some (lit "a"), some 2⟩, ⟨hoCid, some (lit "b"), some 2⟩]⟩ else .error []
  unmarshal data := if data = [8, 1] then .ok .directory else .error []

/-- The second file is not there. -/
def pairHalf : Walk where
  formats := pairFormats
  get text := .ok (if text = pairText then some pairBytes else if text = hiText then some [104, 105] else none)
  leavesOptional := true

theorem verifyTree_proves_example : ∃ rootCid, pairFormats.parse pairText = .ok rootCid ∧
    TreeOf pairHalf rootCid
      ⟨⟨[(lit "a", hiText), (lit "b", hoText)], by decide⟩, ⟨[([], pairText)], by decide⟩,
        ⟨[(hoText, 2)], by decide⟩, ⟨[(lit "b", [hoText])], by decide⟩⟩ :=
  verifyTree_proves (show verifyTree pairHalf 3 pairText = .ok _ from rfl)

end Estoc.FolderObject
