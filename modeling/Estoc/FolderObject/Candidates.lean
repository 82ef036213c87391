import Estoc.FolderObject.Paths
import Mathlib.Data.List.Pairwise
import Mathlib.Data.List.Infix

/-!
# The candidates of a tree

`candidatesOf` turns a mapping of file paths and a list of directories into what the
importer is handed: one candidate for each file and one for each directory that the files
do not already imply. A file's ancestors are put down as directories, and so is each
directory listed; the ancestors of a listed directory are not. So a file is held against
the directories above the other files and against the directories listed, and never
against what stands above a directory listed: a file `a` and a directory `a/b` both pass.

What the paths say is stated on their segments. `Above` is the strict ancestor,
`Overlap` and `Twice` are the two conflicts, `Refused` collects the grounds on which a list
is turned away and `Undercut` is the one conflict that is nobody's ground.
-/

set_option linter.unusedSectionVars false

namespace Estoc.FolderObject

open Json (lit)
open Utf16 (JsString)
open Checked (refuse)

/-- A file's path and its bytes. -/
abbrev File := JsString × List UInt8

/-- What the importer is handed; a directory has no content. -/
structure Candidate where
  path : JsString
  content : Option (List UInt8)
deriving DecidableEq

/-- The lists and sets the loops fill. -/
structure Gathered where
  out : List Candidate := []
  filePaths : List JsString := []
  dirPaths : List JsString := []

/-- A path added to a set. -/
def addPath (paths : List JsString) (path : JsString) : List JsString :=
  if path ∈ paths then paths else paths ++ [path]

/-- The directories above a path. -/
def ancestors (segments : List JsString) : List JsString :=
  (List.range' 1 (segments.length - 1)).map fun i => join (segments.take i)

def addFile (g : Gathered) (file : File) : Except JsString Gathered := do
  let segments ← segmentsOf file.1
  let normalized := join segments
  refuse (normalized ∈ g.filePaths) (lit "duplicate path: " ++ normalized)
  pure {
    out := g.out ++ [⟨normalized, some file.2⟩]
    filePaths := g.filePaths ++ [normalized]
    dirPaths := (ancestors segments).foldl addPath g.dirPaths }

def addDir (g : Gathered) (path : JsString) : Except JsString Gathered := do
  let normalized := join (← segmentsOf path)
  pure <| if normalized ∈ g.dirPaths then g else
    { g with out := g.out ++ [⟨normalized, none⟩], dirPaths := g.dirPaths ++ [normalized] }

/-- Normalize and reject unsafe or conflicting paths. -/
def candidatesOf (files : List File) (dirs : List JsString) : Except JsString (List Candidate) := do
  let g ← files.foldlM addFile {}
  let g ← dirs.foldlM addDir g
  match g.filePaths.find? (· ∈ g.dirPaths) with
  | some path => .error (path ++ lit " is both a file and a directory")
  | none => pure g.out

/-! ## What the paths say -/

/-- A strict ancestor of a path. -/
def Above (a s : List JsString) : Prop := a ≠ [] ∧ a <+: s ∧ a ≠ s

/-- A file of the mapping. -/
def IsFile (files : List File) (s : List JsString) : Prop := ∃ file ∈ files, segmentsOf file.1 = .ok s

/-- A directory of the list. -/
def IsListed (dirs : List JsString) (s : List JsString) : Prop := ∃ path ∈ dirs, segmentsOf path = .ok s

/-- A directory of the tree: listed, or above a file or a directory listed. -/
def IsDir (files : List File) (dirs : List JsString) (s : List JsString) : Prop :=
  IsListed dirs s ∨ ∃ t, (IsFile files t ∨ IsListed dirs t) ∧ Above s t

/-- Some path is both a file and a directory. -/
def Overlap (files : List File) (dirs : List JsString) : Prop :=
  ∃ s, IsFile files s ∧ IsDir files dirs s

/-- Two files spell one path. -/
def Twice (files : List File) : Prop :=
  ¬ files.Pairwise fun f g => ∀ s, segmentsOf f.1 = .ok s → segmentsOf g.1 ≠ .ok s

/-- A file stands above a directory listed. -/
def Undercut (files : List File) (dirs : List JsString) : Prop :=
  ∃ s t, IsFile files s ∧ IsListed dirs t ∧ Above s t

/-- A path is empty or unsafe, two files spell one path, or a file stands above another or
is listed as a directory. -/
def Refused (files : List File) (dirs : List JsString) : Prop :=
  (∃ path ∈ files.map Prod.fst ++ dirs, ∃ e, segmentsOf path = .error e) ∨ Twice files ∨
    (∃ s t, IsFile files s ∧ IsFile files t ∧ Above s t) ∨ ∃ s, IsFile files s ∧ IsListed dirs s

/-- The segments of a candidate. -/
def Candidate.names (c : Candidate) : List JsString := c.path.splitOn slash

/-- A path a candidate gives, or implies as an ancestor. -/
def Candidate.Gives (c : Candidate) (s : List JsString) : Prop := s = c.names ∨ Above s c.names

/-- No two candidates are equal, and a file is neither another path, given or implied,
nor above one. -/
structure Clean (out : List Candidate) : Prop where
  once : out.Pairwise fun c d => c.path ≠ d.path
  file : ∀ f ∈ out, f.content.isSome = true → ∀ c ∈ out, ∀ s, c.Gives s →
    f.names = s ∨ Above f.names s → c = f ∧ s = f.names

/-- What is accepted is clean, and a list with a conflict in it is not accepted. -/
def Sound (files : List File) (dirs : List JsString) : Prop :=
  (∀ out, candidatesOf files dirs = .ok out → Clean out) ∧
    (Overlap files dirs ∨ Twice files → ∃ e, candidatesOf files dirs = .error e)

/-! ## Ancestors -/

theorem mem_foldl_addPath {paths : List JsString} {p : JsString} (added : List JsString) :
    p ∈ added.foldl addPath paths ↔ p ∈ paths ∨ p ∈ added := by
  induction added generalizing paths with
  | nil => simp
  | cons a rest ih =>
      rw [List.foldl_cons, ih, addPath, List.mem_cons]
      split <;> rename_i ha
      · constructor
        · rintro (h | h)
          · exact .inl h
          · exact .inr (.inr h)
        · rintro (h | rfl | h)
          · exact .inl h
          · exact .inl ha
          · exact .inr h
      · rw [List.mem_append, List.mem_singleton, or_assoc]

theorem mem_ancestors {s : List JsString} {p : JsString} :
    p ∈ ancestors s ↔ ∃ a, Above a s ∧ p = join a := by
  simp only [ancestors, List.mem_map, List.mem_range'_1]
  constructor
  · rintro ⟨i, hi, rfl⟩
    have hlength : (s.take i).length = i := by rw [List.length_take]; omega
    refine ⟨s.take i, ⟨?_, List.take_prefix _ _, ?_⟩, rfl⟩
    · intro hnil
      rw [hnil, List.length_nil] at hlength
      omega
    · intro hall
      rw [hall] at hlength
      omega
  · rintro ⟨a, ⟨hne, hstarts, hproper⟩, rfl⟩
    have hle := hstarts.length_le
    have hpos := List.length_pos_iff.mpr hne
    have hlt : a.length ≠ s.length := fun h => hproper (hstarts.eq_of_length h)
    exact ⟨a.length, by omega, by rw [← List.prefix_iff_eq_take.mp hstarts]⟩

theorem Above.names {a s : List JsString} (h : Above a s) (hs : ∀ x ∈ s, Name x) :
    ∀ x ∈ a, Name x := fun x hx => hs x (h.2.1.subset hx)

/-! ## What the loops gather -/

/-- A path spelled in a set stands for its segments. -/
def Spells (P : List JsString → Prop) (p : JsString) : Prop := ∃ s, P s ∧ p = join s

theorem spells_or {P Q : List JsString → Prop} {p : JsString} :
    Spells (fun s => P s ∨ Q s) p ↔ Spells P p ∨ Spells Q p := by
  constructor
  · rintro ⟨s, h | h, rfl⟩
    · exact .inl ⟨s, h, rfl⟩
    · exact .inr ⟨s, h, rfl⟩
  · rintro (⟨s, h, rfl⟩ | ⟨s, h, rfl⟩)
    · exact ⟨s, .inl h, rfl⟩
    · exact ⟨s, .inr h, rfl⟩

theorem isFile_append {files : List File} {file : File} {segments s : List JsString}
    (h : segmentsOf file.1 = .ok segments) :
    IsFile (files ++ [file]) s ↔ IsFile files s ∨ s = segments := by
  constructor
  · rintro ⟨f, hf, hs⟩
    rcases List.mem_append.mp hf with hf | hf
    · exact .inl ⟨f, hf, hs⟩
    · rw [List.mem_singleton.mp hf, h] at hs
      exact .inr (Except.ok.inj hs).symm
  · rintro (⟨f, hf, hs⟩ | rfl)
    · exact ⟨f, List.mem_append_left _ hf, hs⟩
    · exact ⟨file, List.mem_append_right _ (List.mem_singleton_self _), h⟩

theorem isListed_append {dirs : List JsString} {path : JsString} {segments s : List JsString}
    (h : segmentsOf path = .ok segments) :
    IsListed (dirs ++ [path]) s ↔ IsListed dirs s ∨ s = segments := by
  constructor
  · rintro ⟨d, hd, hs⟩
    rcases List.mem_append.mp hd with hd | hd
    · exact .inl ⟨d, hd, hs⟩
    · rw [List.mem_singleton.mp hd, h] at hs
      exact .inr (Except.ok.inj hs).symm
  · rintro (⟨d, hd, hs⟩ | rfl)
    · exact ⟨d, List.mem_append_left _ hd, hs⟩
    · exact ⟨path, List.mem_append_right _ (List.mem_singleton_self _), h⟩

theorem IsFile.names {files : List File} {s : List JsString} (h : IsFile files s) :
    s ≠ [] ∧ ∀ x ∈ s, Name x := by
  obtain ⟨file, -, hs⟩ := h
  exact names_of_segmentsOf hs

theorem IsListed.names {dirs : List JsString} {s : List JsString} (h : IsListed dirs s) :
    s ≠ [] ∧ ∀ x ∈ s, Name x := by
  obtain ⟨path, -, hs⟩ := h
  exact names_of_segmentsOf hs

/-- A directory as the code registers one: listed, or above a file. -/
def Registered (files : List File) (dirs : List JsString) (s : List JsString) : Prop :=
  IsListed dirs s ∨ ∃ t, IsFile files t ∧ Above s t

theorem Registered.names {files : List File} {dirs : List JsString} {s : List JsString}
    (h : Registered files dirs s) : s ≠ [] ∧ ∀ x ∈ s, Name x := by
  rcases h with h | ⟨t, ht, habove⟩
  · exact h.names
  · exact ⟨habove.1, habove.names ht.names.2⟩

/-- What is gathered once `files` and then `dirs` are read. -/
structure Gathers (files : List File) (dirs : List JsString) (g : Gathered) : Prop where
  spelled : ∀ path ∈ files.map Prod.fst ++ dirs, ∃ s, segmentsOf path = .ok s
  once : ¬ Twice files
  filePaths : ∀ p, p ∈ g.filePaths ↔ Spells (IsFile files) p
  dirPaths : ∀ p, p ∈ g.dirPaths ↔ Spells (Registered files dirs) p
  file : ∀ c ∈ g.out, c.content.isSome = true → Spells (IsFile files) c.path
  dir : ∀ c ∈ g.out, c.content.isSome = false → Spells (IsListed dirs) c.path
  distinct : g.out.Pairwise fun c d => c.content.isSome = d.content.isSome → c.path ≠ d.path

variable {files : List File} {dirs : List JsString} {g g' : Gathered}

theorem gathers_nil : Gathers [] [] {} where
  spelled path h := by cases h
  once h := h List.Pairwise.nil
  filePaths p := by
    constructor
    · intro h
      cases h
    · rintro ⟨s, ⟨f, hf, -⟩, -⟩
      cases hf
  dirPaths p := by
    constructor
    · intro h
      cases h
    · rintro ⟨s, ⟨d, hd, -⟩ | ⟨t, ⟨f, hf, -⟩, -⟩, -⟩
      · cases hd
      · cases hf
  file c h := by cases h
  dir c h := by cases h
  distinct := List.Pairwise.nil

/-- A file that is read spells a path no file before it spelled. -/
theorem addFile_eq_ok {file : File} (h : addFile g file = .ok g') :
    ∃ segments, segmentsOf file.1 = .ok segments ∧ join segments ∉ g.filePaths ∧
      g' = ⟨g.out ++ [⟨join segments, some file.2⟩], g.filePaths ++ [join segments],
        (ancestors segments).foldl addPath g.dirPaths⟩ := by
  obtain ⟨segments, hsegments, h⟩ := Checked.bind_eq_ok.mp h
  obtain ⟨hnew, h⟩ := Checked.refuse_bind_eq_ok.mp h
  exact ⟨segments, hsegments, hnew, (Except.ok.inj h).symm⟩

theorem addFile_ok {file : File} {segments : List JsString} (h : segmentsOf file.1 = .ok segments)
    (hnew : join segments ∉ g.filePaths) : ∃ g', addFile g file = .ok g' := by
  simp only [addFile, h, Checked.ok_bind, Checked.refuse_of_not hnew]
  exact ⟨_, rfl⟩

theorem Gathers.addFile {file : File} (h : Gathers files [] g)
    (hstep : FolderObject.addFile g file = .ok g') : Gathers (files ++ [file]) [] g' := by
  obtain ⟨segments, hsegments, hnew, rfl⟩ := addFile_eq_ok hstep
  have hfiles : ∀ p, p ∈ g.filePaths ++ [join segments] ↔ Spells (IsFile (files ++ [file])) p := by
    intro p
    rw [List.mem_append, h.filePaths, List.mem_singleton]
    simp only [Spells, isFile_append hsegments]
    constructor
    · rintro (⟨s, hs, rfl⟩ | rfl)
      · exact ⟨s, .inl hs, rfl⟩
      · exact ⟨segments, .inr rfl, rfl⟩
    · rintro ⟨s, hs | rfl, rfl⟩
      · exact .inl ⟨s, hs, rfl⟩
      · exact .inr rfl
  refine ⟨?_, ?_, hfiles, ?_, ?_, ?_, ?_⟩
  · intro path hpath
    rw [List.append_nil, List.map_append, List.mem_append] at hpath
    rcases hpath with hpath | hpath
    · exact h.spelled path (List.mem_append_left _ hpath)
    · rw [List.map_singleton, List.mem_singleton] at hpath
      exact ⟨segments, hpath ▸ hsegments⟩
  · intro htwice
    refine htwice (List.pairwise_append.mpr ⟨of_not_not h.once, List.pairwise_singleton _ _, ?_⟩)
    intro f hf file' hfile' s hs hs'
    rw [List.mem_singleton.mp hfile', hsegments] at hs'
    obtain rfl := Except.ok.inj hs'
    exact hnew ((h.filePaths _).mpr ⟨segments, ⟨f, hf, hs⟩, rfl⟩)
  · intro p
    rw [mem_foldl_addPath, h.dirPaths, mem_ancestors]
    constructor
    · rintro (⟨s, hs | ⟨t, ht, habove⟩, rfl⟩ | ⟨a, ha, rfl⟩)
      · exact ⟨s, .inl hs, rfl⟩
      · exact ⟨s, .inr ⟨t, (isFile_append hsegments).mpr (.inl ht), habove⟩, rfl⟩
      · exact ⟨a, .inr ⟨segments, (isFile_append hsegments).mpr (.inr rfl), ha⟩, rfl⟩
    · rintro ⟨s, hs | ⟨t, ht, habove⟩, rfl⟩
      · exact .inl ⟨s, .inl hs, rfl⟩
      · rcases (isFile_append hsegments).mp ht with ht | rfl
        · exact .inl ⟨s, .inr ⟨t, ht, habove⟩, rfl⟩
        · exact .inr ⟨s, habove, rfl⟩
  · intro c hc hcontent
    rcases List.mem_append.mp hc with hc | hc
    · obtain ⟨s, hs, hpath⟩ := h.file c hc hcontent
      exact ⟨s, (isFile_append hsegments).mpr (.inl hs), hpath⟩
    · rw [List.mem_singleton.mp hc]
      exact ⟨segments, (isFile_append hsegments).mpr (.inr rfl), rfl⟩
  · intro c hc hcontent
    rcases List.mem_append.mp hc with hc | hc
    · exact h.dir c hc hcontent
    · rw [List.mem_singleton.mp hc] at hcontent
      cases hcontent
  · refine List.pairwise_append.mpr ⟨h.distinct, List.pairwise_singleton _ _, ?_⟩
    intro c hc d hd hkind hpath
    rw [List.mem_singleton.mp hd] at hkind hpath
    refine hnew ((h.filePaths _).mpr ?_)
    rw [← show c.path = join segments from hpath]
    exact h.file c hc hkind

/-- A directory that is read becomes a candidate unless it is already one or implied. -/
theorem addDir_eq_ok {path : JsString} (h : addDir g path = .ok g') :
    ∃ segments, segmentsOf path = .ok segments ∧
      (join segments ∈ g.dirPaths ∧ g' = g ∨ join segments ∉ g.dirPaths ∧
        g' = { g with out := g.out ++ [⟨join segments, none⟩], dirPaths := g.dirPaths ++ [join segments] }) := by
  obtain ⟨segments, hsegments, h⟩ := Checked.bind_eq_ok.mp h
  obtain rfl := Except.ok.inj h
  refine ⟨segments, hsegments, ?_⟩
  by_cases hmem : join segments ∈ g.dirPaths
  · exact .inl ⟨hmem, if_pos hmem⟩
  · exact .inr ⟨hmem, if_neg hmem⟩

theorem addDir_ok {path : JsString} {segments : List JsString} (h : segmentsOf path = .ok segments) :
    ∃ g', addDir g path = .ok g' := by
  rw [addDir, h, Checked.ok_bind]
  exact ⟨_, rfl⟩

theorem Gathers.addDir {path : JsString} (h : Gathers files dirs g)
    (hstep : FolderObject.addDir g path = .ok g') : Gathers files (dirs ++ [path]) g' := by
  obtain ⟨segments, hsegments, hcases⟩ := addDir_eq_ok hstep
  have hspelled : ∀ path' ∈ files.map Prod.fst ++ (dirs ++ [path]), ∃ s, segmentsOf path' = .ok s := by
    intro path' hpath'
    rw [← List.append_assoc, List.mem_append, List.mem_singleton] at hpath'
    rcases hpath' with hpath' | rfl
    · exact h.spelled path' hpath'
    · exact ⟨segments, hsegments⟩
  have hregistered : ∀ p, Spells (Registered files (dirs ++ [path])) p ↔
      Spells (Registered files dirs) p ∨ p = join segments := by
    intro p
    constructor
    · rintro ⟨s, hs | hs, rfl⟩
      · rcases (isListed_append hsegments).mp hs with hs | rfl
        · exact .inl ⟨s, .inl hs, rfl⟩
        · exact .inr rfl
      · exact .inl ⟨s, .inr hs, rfl⟩
    · rintro (⟨s, hs | hs, rfl⟩ | rfl)
      · exact ⟨s, .inl ((isListed_append hsegments).mpr (.inl hs)), rfl⟩
      · exact ⟨s, .inr hs, rfl⟩
      · exact ⟨segments, .inl ((isListed_append hsegments).mpr (.inr rfl)), rfl⟩
  have hlisted : ∀ p, Spells (IsListed dirs) p → Spells (IsListed (dirs ++ [path])) p := by
    rintro p ⟨s, hs, rfl⟩
    exact ⟨s, (isListed_append hsegments).mpr (.inl hs), rfl⟩
  rcases hcases with ⟨hmem, rfl⟩ | ⟨hnew, rfl⟩
  · refine ⟨hspelled, h.once, h.filePaths, fun p => ?_, h.file,
      fun c hc hcontent => hlisted _ (h.dir c hc hcontent), h.distinct⟩
    rw [hregistered, h.dirPaths]
    refine ⟨.inl, ?_⟩
    rintro (hp | rfl)
    · exact hp
    · exact (h.dirPaths _).mp hmem
  · refine ⟨hspelled, h.once, h.filePaths, fun p => ?_, ?_, ?_, ?_⟩
    · rw [List.mem_append, List.mem_singleton, hregistered, h.dirPaths]
    · intro c hc hcontent
      rcases List.mem_append.mp hc with hc | hc
      · exact h.file c hc hcontent
      · rw [List.mem_singleton.mp hc] at hcontent
        cases hcontent
    · intro c hc hcontent
      rcases List.mem_append.mp hc with hc | hc
      · exact hlisted _ (h.dir c hc hcontent)
      · rw [List.mem_singleton.mp hc]
        exact ⟨segments, (isListed_append hsegments).mpr (.inr rfl), rfl⟩
    · refine List.pairwise_append.mpr ⟨h.distinct, List.pairwise_singleton _ _, ?_⟩
      intro c hc d hd hkind hpath
      rw [List.mem_singleton.mp hd] at hkind hpath
      obtain ⟨s, hs, hspelled'⟩ := h.dir c hc hkind
      exact hnew ((h.dirPaths _).mpr ⟨s, .inl hs, hpath.symm.trans hspelled'⟩)

theorem gathers_files (rest : List File) {done : List File} (h : Gathers done [] g)
    (hrun : rest.foldlM FolderObject.addFile g = .ok g') : Gathers (done ++ rest) [] g' := by
  induction rest generalizing done g with
  | nil =>
      rw [List.append_nil]
      exact Except.ok.inj hrun ▸ h
  | cons file rest ih =>
      obtain ⟨g₁, hfile, hrest⟩ := Checked.bind_eq_ok.mp (by rwa [List.foldlM_cons] at hrun)
      have hdone := ih (h.addFile hfile) hrest
      rwa [List.append_assoc] at hdone

theorem gathers_dirs (rest : List JsString) {done : List JsString} (h : Gathers files done g)
    (hrun : rest.foldlM FolderObject.addDir g = .ok g') : Gathers files (done ++ rest) g' := by
  induction rest generalizing done g with
  | nil =>
      rw [List.append_nil]
      exact Except.ok.inj hrun ▸ h
  | cons path rest ih =>
      obtain ⟨g₁, hpath, hrest⟩ := Checked.bind_eq_ok.mp (by rwa [List.foldlM_cons] at hrun)
      have hdone := ih (h.addDir hpath) hrest
      rwa [List.append_assoc] at hdone

/-- Files that spell their paths, each a path of its own, are all read. -/
theorem files_read (rest : List File) {done : List File} (h : Gathers done [] g)
    (hspelled : ∀ path ∈ rest.map Prod.fst, ∃ s, segmentsOf path = .ok s)
    (honce : ¬ Twice (done ++ rest)) : ∃ g', rest.foldlM FolderObject.addFile g = .ok g' := by
  induction rest generalizing done g with
  | nil => exact ⟨g, rfl⟩
  | cons file rest ih =>
      obtain ⟨segments, hsegments⟩ := hspelled file.1 List.mem_cons_self
      have hnew : join segments ∉ g.filePaths := by
        intro hmem
        obtain ⟨s, hs, hjoin⟩ := (h.filePaths _).mp hmem
        obtain ⟨hne, hnames⟩ := names_of_segmentsOf hsegments
        obtain rfl := join_injective hne hs.names.1 hnames hs.names.2 hjoin
        obtain ⟨f, hf, hspells⟩ := hs
        exact (List.pairwise_append.mp (of_not_not honce)).2.2 f hf file List.mem_cons_self
          segments hspells hsegments
      obtain ⟨g₁, hfile⟩ := addFile_ok hsegments hnew
      rw [List.append_cons] at honce
      obtain ⟨g', hrest⟩ := ih (h.addFile hfile)
        (fun path hpath => hspelled path (List.mem_cons_of_mem _ hpath)) honce
      exact ⟨g', by rw [List.foldlM_cons, hfile, Checked.ok_bind, hrest]⟩

theorem dirs_read (rest : List JsString) (g : Gathered)
    (hspelled : ∀ path ∈ rest, ∃ s, segmentsOf path = .ok s) :
    ∃ g', rest.foldlM FolderObject.addDir g = .ok g' := by
  induction rest generalizing g with
  | nil => exact ⟨g, rfl⟩
  | cons path rest ih =>
      obtain ⟨segments, hsegments⟩ := hspelled path List.mem_cons_self
      obtain ⟨g₁, hpath⟩ := addDir_ok (g := g) hsegments
      obtain ⟨g', hrest⟩ := ih g₁ fun path' h => hspelled path' (List.mem_cons_of_mem _ h)
      exact ⟨g', by rw [List.foldlM_cons, hpath, Checked.ok_bind, hrest]⟩

/-! ## What is accepted -/

theorem candidatesOf_eq_ok {out : List Candidate} (h : candidatesOf files dirs = .ok out) :
    ∃ g, Gathers files dirs g ∧ (∀ p ∈ g.filePaths, p ∉ g.dirPaths) ∧ g.out = out := by
  obtain ⟨g₁, hfiles, h⟩ := Checked.bind_eq_ok.mp h
  obtain ⟨g, hdirs, h⟩ := Checked.bind_eq_ok.mp h
  refine ⟨g, gathers_dirs dirs (gathers_files files gathers_nil hfiles) hdirs, ?_⟩
  split at h
  · cases h
  · next hnone =>
      exact ⟨fun p hp hd => List.find?_eq_none.mp hnone p hp (decide_eq_true hd), Except.ok.inj h⟩

/-- A file whose path is registered as a directory is above another file or is listed. -/
theorem overlapping (h : Gathers files dirs g) {p : JsString} (hfile : p ∈ g.filePaths)
    (hdir : p ∈ g.dirPaths) :
    (∃ s t, IsFile files s ∧ IsFile files t ∧ Above s t) ∨ ∃ s, IsFile files s ∧ IsListed dirs s := by
  obtain ⟨s, hs, rfl⟩ := (h.filePaths p).mp hfile
  obtain ⟨s', hs', hjoin⟩ := (h.dirPaths _).mp hdir
  obtain rfl := join_injective hs.names.1 hs'.names.1 hs.names.2 hs'.names.2 hjoin
  rcases hs' with hlisted | ⟨t, ht, habove⟩
  · exact .inr ⟨s, hs, hlisted⟩
  · exact .inl ⟨s, t, hs, ht, habove⟩

theorem not_refused_of_ok {out : List Candidate} (h : candidatesOf files dirs = .ok out) :
    ¬ Refused files dirs := by
  obtain ⟨g, hg, hcheck, -⟩ := candidatesOf_eq_ok h
  rintro (⟨path, hpath, e, he⟩ | htwice | ⟨s, t, hs, ht, habove⟩ | ⟨s, hs, hlisted⟩)
  · obtain ⟨s, hs⟩ := hg.spelled path hpath
    rw [he] at hs
    cases hs
  · exact hg.once htwice
  · exact hcheck (join s) ((hg.filePaths _).mpr ⟨s, hs, rfl⟩)
      ((hg.dirPaths _).mpr ⟨s, .inr ⟨t, ht, habove⟩, rfl⟩)
  · exact hcheck (join s) ((hg.filePaths _).mpr ⟨s, hs, rfl⟩)
      ((hg.dirPaths _).mpr ⟨s, .inl hlisted, rfl⟩)

theorem ok_of_not_refused (h : ¬ Refused files dirs) : ∃ out, candidatesOf files dirs = .ok out := by
  have hspelled : ∀ path ∈ files.map Prod.fst ++ dirs, ∃ s, segmentsOf path = .ok s := by
    intro path hpath
    cases hsegments : segmentsOf path with
    | ok s => exact ⟨s, rfl⟩
    | error e => exact absurd (.inl ⟨path, hpath, e, hsegments⟩) h
  obtain ⟨g₁, hfiles⟩ := files_read files gathers_nil
    (fun path hpath => hspelled path (List.mem_append_left _ hpath)) fun htwice => h (.inr (.inl htwice))
  obtain ⟨g, hdirs⟩ := dirs_read dirs g₁ fun path hpath => hspelled path (List.mem_append_right _ hpath)
  have hg := gathers_dirs dirs (gathers_files files gathers_nil hfiles) hdirs
  have hnone : g.filePaths.find? (· ∈ g.dirPaths) = none :=
    List.find?_eq_none.mpr fun p hp hd =>
      h (.inr (.inr (overlapping hg hp (of_decide_eq_true hd))))
  refine ⟨g.out, ?_⟩
  rw [candidatesOf, hfiles, Checked.ok_bind, hdirs, Checked.ok_bind]
  simp only [hnone]
  rfl

theorem clean_of_ok {out : List Candidate} (h : candidatesOf files dirs = .ok out)
    (hundercut : ¬ Undercut files dirs) : Clean out := by
  obtain ⟨g, hg, hcheck, rfl⟩ := candidatesOf_eq_ok h
  -- a file and a directory never share a path, two of a kind never did
  have honce : g.out.Pairwise fun c d => c.path ≠ d.path := by
    refine hg.distinct.imp_of_mem fun {c d} hc hd hdistinct hpath => ?_
    have hnot : ∀ f ∈ g.out, ∀ e ∈ g.out, f.content.isSome = true → e.content.isSome = false →
        f.path ≠ e.path := by
      intro f hf e he hfile hdir hsame
      obtain ⟨s, hs, hspelled⟩ := hg.dir e he hdir
      exact hcheck f.path ((hg.filePaths _).mpr (hg.file f hf hfile))
        ((hg.dirPaths _).mpr ⟨s, .inl hs, hsame.trans hspelled⟩)
    cases hcf : c.content.isSome <;> cases hdf : d.content.isSome
    · exact hdistinct (hcf.trans hdf.symm) hpath
    · exact hnot d hd c hc hdf hcf hpath.symm
    · exact hnot c hc d hd hcf hdf hpath
    · exact hdistinct (hcf.trans hdf.symm) hpath
  refine ⟨honce, fun f hf hfile c hc s hgives hover => ?_⟩
  obtain ⟨sf, hsf, hpathf⟩ := hg.file f hf hfile
  have hnamesf : f.names = sf := by rw [Candidate.names, hpathf, splitOn_join hsf.names.1 hsf.names.2]
  obtain ⟨sc, hsc, hpathc⟩ : Spells (fun s => IsFile files s ∨ IsListed dirs s) c.path := by
    cases hkind : c.content.isSome with
    | true => exact spells_or.mpr (.inl (hg.file c hc hkind))
    | false => exact spells_or.mpr (.inr (hg.dir c hc hkind))
  have hvalid : sc ≠ [] ∧ ∀ x ∈ sc, Name x := by
    rcases hsc with h | h
    · exact h.names
    · exact h.names
  have hnamesc : c.names = sc := by rw [Candidate.names, hpathc, splitOn_join hvalid.1 hvalid.2]
  rw [Candidate.Gives, hnamesc] at hgives
  rw [hnamesf] at hover ⊢
  have hfs : sf <+: s := by
    rcases hover with rfl | h
    · exact List.prefix_refl _
    · exact h.2.1
  have hsc' : s <+: sc := by
    rcases hgives with rfl | h
    · exact List.prefix_refl _
    · exact h.2.1
  by_cases hsame : sf = sc
  · have hfc : s = sf := by
      rw [← hsame] at hsc'
      exact hsc'.eq_of_length (Nat.le_antisymm hsc'.length_le hfs.length_le)
    refine ⟨?_, hfc⟩
    by_contra hne
    have hsymm : Std.Symm fun c d : Candidate => c.path ≠ d.path := ⟨fun _ _ h => h.symm⟩
    exact honce.forall hc hf hne (by rw [hpathc, hpathf, hsame])
  · have habove : Above sf sc := ⟨hsf.names.1, hfs.trans hsc', hsame⟩
    rcases hsc with hsc | hsc
    · exact absurd (.inr (.inr (.inl ⟨sf, sc, hsf, hsc, habove⟩))) (not_refused_of_ok h)
    · exact absurd ⟨sf, sc, hsf, hsc, habove⟩ hundercut

/-- Every conflict but a file above a directory listed is a ground of refusal. -/
theorem refused_of_conflict (h : Overlap files dirs ∨ Twice files) (hundercut : ¬ Undercut files dirs) :
    Refused files dirs := by
  rcases h with ⟨s, hs, hlisted | ⟨t, ht | ht, habove⟩⟩ | htwice
  · exact .inr (.inr (.inr ⟨s, hs, hlisted⟩))
  · exact .inr (.inr (.inl ⟨s, t, hs, ht, habove⟩))
  · exact absurd ⟨s, t, hs, ht, habove⟩ hundercut
  · exact .inr (.inl htwice)

theorem error_of_refused (h : Refused files dirs) : ∃ e, candidatesOf files dirs = .error e := by
  cases hrun : candidatesOf files dirs with
  | ok out => exact absurd h (not_refused_of_ok hrun)
  | error e => exact ⟨e, rfl⟩

/-- Accepting is sound just where a file above a directory listed is turned away on some
other ground. -/
theorem candidatesOf_sound_iff (files : List File) (dirs : List JsString) :
    Sound files dirs ↔ (Undercut files dirs → Refused files dirs) := by
  constructor
  · rintro ⟨-, hrefuses⟩ ⟨s, t, hs, ht, habove⟩
    obtain ⟨e, he⟩ := hrefuses (.inl ⟨s, hs, .inr ⟨t, .inr ht, habove⟩⟩)
    by_contra hrefused
    obtain ⟨out, hout⟩ := ok_of_not_refused hrefused
    rw [hout] at he
    cases he
  · intro hcondition
    refine ⟨fun out hout => clean_of_ok hout fun h => not_refused_of_ok hout (hcondition h), ?_⟩
    intro hconflict
    by_cases hundercut : Undercut files dirs
    · exact error_of_refused (hcondition hundercut)
    · exact error_of_refused (refused_of_conflict hconflict hundercut)

/-- A file `a` and a directory `a/b` are both candidates. -/
theorem file_above_listed :
    candidatesOf [(lit "a", [])] [lit "a/b"] = .ok [⟨lit "a", some []⟩, ⟨lit "a/b", none⟩] ∧
      ¬ Sound [(lit "a", [])] [lit "a/b"] := by
  have hout : candidatesOf [(lit "a", [])] [lit "a/b"] = .ok [⟨lit "a", some []⟩, ⟨lit "a/b", none⟩] := by
    decide
  refine ⟨hout, fun hsound => ?_⟩
  have hclean := hsound.1 _ hout
  have hfile := hclean.file ⟨lit "a", some []⟩ List.mem_cons_self rfl ⟨lit "a/b", none⟩
    (List.mem_cons_of_mem _ List.mem_cons_self) [lit "a"]
    (.inr ⟨by decide, by decide, by decide⟩) (.inl (by decide))
  exact absurd hfile.1 (by decide)

end Estoc.FolderObject
