import Estoc.EventStore.Agreement
import Estoc.EventStore.Preparation

/-!
# What the steps of the object store leave

Most of what the store does leaves the objects it holds and their epochs alone. What
lands or removes an object is told apart by its CID: of a CID under which something is
held, and whose epoch a step does not move, the step leaves all that is stored. A
transaction that is taken back leaves every CID so, with some epochs moved all the same.
-/

set_option linter.unusedSectionVars false

namespace Estoc.EventStore

open Utf16 (JsString)
open Estoc.Dasl (DaslCid)
open Effect (Keeps Runs bind_ok bind_run read_bind change_bind lift_bind_ok)
open Checked (bind_eq_ok)

/-! ## CIDs as keys -/

theorem rawCidOf_text {cid : JsString} {parsed : DaslCid} (h : rawCidOf cid = .ok parsed) :
    parsed.text = cid := by
  rw [rawCidOf] at h
  split at h
  · cases h
  · next hparse =>
      split at h
      · cases h
      · cases h
        exact Dasl.parseCid_eq_ok hparse

/-- A text that names an object. -/
def CidText (cid : JsString) : Prop := ∃ parsed, rawCidOf cid = .ok parsed

theorem cidText_text {cid : JsString} (h : CidText cid) : ∃ parsed : DaslCid, parsed.text = cid := by
  obtain ⟨parsed, hparsed⟩ := h
  exact ⟨parsed, rawCidOf_text hparsed⟩

theorem key_inj {a b : DaslCid} (h : SqliteObjectStore.textColumn a.text = SqliteObjectStore.textColumn b.text) :
    a.text = b.text :=
  Utf16.encodeUtf8_injective (Utf16.loneSurrogate_ascii fun u hu => (a.ascii_text u hu).2)
    (Utf16.loneSurrogate_ascii fun u hu => (b.ascii_text u hu).2) (SqlValue.bytes.inj h)

/-! ## What is stored -/

/-- What is stored under a CID: its rows, and its chunks. -/
structure Stored where
  objects : List ObjectRow
  chunks : List ChunkRow
deriving DecidableEq

/-- What is accepted under a CID as its row gives it. -/
def Stored.size (stored : Stored) : Option Nat := do
  let row ← stored.objects.head?
  let text ← row.size
  countOf text

/-- The bytes of a chunk, if they are bytes. -/
def Stored.chunk (stored : Stored) (chunkNo : Nat) : Option (List UInt8) := do
  let row ← stored.chunks.find? (·.chunkNo == chunkNo)
  match row.bytes with
  | .blob bytes => some bytes
  | .other _ => none

namespace SqliteObjectStore

def under (store : SqliteObjectStore) (cid : JsString) : Stored :=
  ⟨store.tables.objects.filter (·.cid == textColumn cid),
    store.tables.chunks.filter (·.cid == textColumn cid)⟩

/-- An object is held under a CID. -/
def Holds (store : SqliteObjectStore) (cid : JsString) : Prop := (store.under cid).objects ≠ []

/-- What leaves the objects, and their epochs. -/
structure Quiet (before after : SqliteObjectStore) : Prop where
  objects : after.tables.objects = before.tables.objects
  chunks : after.tables.chunks = before.tables.chunks
  epochs : after.epochs = before.epochs

instance : Std.Refl Quiet := ⟨fun _ => ⟨rfl, rfl, rfl⟩⟩

instance : IsTrans SqliteObjectStore Quiet :=
  ⟨fun _ _ _ h h' => ⟨h'.1.trans h.1, h'.2.trans h.2, h'.3.trans h.3⟩⟩

/-- No epoch goes back. -/
def Grows (before after : SqliteObjectStore) : Prop := ∀ cid, before.epoch cid ≤ after.epoch cid

instance : Std.Refl Grows := ⟨fun _ _ => Nat.le_refl _⟩

instance : IsTrans SqliteObjectStore Grows := ⟨fun _ _ _ h h' cid => (h cid).trans (h' cid)⟩

/-- What a step leaves of the CIDs under which something is held, beside those whose
objects it landed or removed. -/
structure Spares (before after : SqliteObjectStore) (landed : List JsString) : Prop where
  grows : Grows before after
  stored : ∀ cid, CidText cid → before.Holds cid → after.epoch cid = before.epoch cid →
    after.under cid = before.under cid ∧ cid ∉ landed
  rowids : (before.tables.objects.map ObjectRow.rowid).Nodup →
    (after.tables.objects.map ObjectRow.rowid).Nodup

variable {s s' s'' : SqliteObjectStore} {cid : JsString}

theorem Quiet.under (h : Quiet s s') (cid : JsString) : s'.under cid = s.under cid := by
  rw [SqliteObjectStore.under, SqliteObjectStore.under, h.objects, h.chunks]

theorem Quiet.epoch (h : Quiet s s') (cid : JsString) : s'.epoch cid = s.epoch cid := by
  rw [SqliteObjectStore.epoch, SqliteObjectStore.epoch, h.epochs]

theorem Quiet.grows (h : Quiet s s') : Grows s s' := fun cid => (h.epoch cid).ge

theorem Quiet.spares (h : Quiet s s') : Spares s s' [] where
  grows := h.grows
  stored cid _ _ _ := ⟨h.under cid, List.not_mem_nil⟩
  rowids hrowids := by
    rw [h.objects]
    exact hrowids

theorem Spares.trans {a b : List JsString} (h : Spares s s' a) (h' : Spares s' s'' b) :
    Spares s s'' (a ++ b) where
  grows cid := (h.grows cid).trans (h'.grows cid)
  stored cid hcid hheld hepoch := by
    have hle := h.grows cid
    have hle' := h'.grows cid
    have hmid : s'.epoch cid = s.epoch cid := by omega
    obtain ⟨hunder, hnot⟩ := h.stored cid hcid hheld hmid
    have hheld' : s'.Holds cid := by
      rw [Holds, hunder]
      exact hheld
    obtain ⟨hunder', hnot'⟩ := h'.stored cid hcid hheld' (hepoch.trans hmid.symm)
    refine ⟨hunder'.trans hunder, ?_⟩
    rw [List.mem_append]
    exact not_or.mpr ⟨hnot, hnot'⟩
  rowids hrowids := h'.rowids (h.rowids hrowids)

/-! ## Epochs -/

theorem epoch_moved (store : SqliteObjectStore) (cid other : JsString) :
    (moved cid store).epoch other = if other = cid then store.epoch cid + 1 else store.epoch other := by
  rw [moved, epoch, OMap.get?_set]
  split <;> rfl

theorem grows_moved (cid : JsString) (store : SqliteObjectStore) : Grows store (moved cid store) := by
  intro other
  rw [epoch_moved]
  split
  · next h =>
      rw [h]
      exact Nat.le_succ _
  · exact Nat.le_refl _

theorem grows_of_epochs (h : s'.epochs = s.epochs) : Grows s s' := by
  intro cid
  rw [epoch, epoch, h]

/-! ## Staging and reads -/

theorem condemn_quiet (cid error : JsString) : Keeps Quiet (condemn cid error) :=
  Keeps.change fun _ => ⟨rfl, rfl, rfl⟩

theorem requireWritable_quiet (what : JsString) : Keeps Quiet (requireWritable what) := by
  refine Keeps.bind (Keeps.read _) fun writable => ?_
  cases writable
  · exact Keeps.throw _
  · exact Keeps.pure _

theorem drop_quiet (token : Nat) : Keeps Quiet (drop token) :=
  Keeps.change fun _ => ⟨rfl, rfl, rfl⟩

theorem begin_quiet (want : Option DaslCid) : Keeps Quiet (begin_ want) :=
  Keeps.bind (Keeps.change fun _ => ⟨rfl, rfl, rfl⟩) fun _ =>
    Keeps.bind (Keeps.read _) fun _ => Keeps.pure _

theorem seal_quiet (put : Put) (chunk : List UInt8) : Keeps Quiet (seal_ put chunk) := by
  refine Keeps.bind (Keeps.read _) fun s => ?_
  split
  · exact Keeps.throw _
  · exact Keeps.bind (Keeps.change fun _ => ⟨rfl, rfl, rfl⟩) fun _ => Keeps.pure _

theorem sealAll_quiet (chunks : List (List UInt8)) (put : Put) : Keeps Quiet (sealAll chunks put) := by
  induction chunks generalizing put with
  | nil => exact Keeps.pure _
  | cons chunk chunks ih => exact Keeps.bind (seal_quiet put chunk) ih

theorem feed_quiet (put : Put) (chunk : List UInt8) : Keeps Quiet (feed put chunk) := by
  refine Keeps.bind (Keeps.read _) fun bound => ?_
  split
  · exact Keeps.throw _
  · exact sealAll_quiet _ _

theorem finish_quiet (P : Packages) (put : Put) : Keeps Quiet (finish P put) := by
  have hpack : Keeps Quiet (packLast put) := by
    unfold packLast
    split
    · exact Keeps.pure _
    · exact seal_quiet _ _
  refine Keeps.bind hpack fun put => ?_
  dsimp only
  split
  · split
    · exact Keeps.throw _
    · exact Keeps.pure _
  · exact Keeps.pure _

theorem sound_quiet (cid : JsString) : Keeps Quiet (sound cid) := by
  refine Keeps.bind (Keeps.lift _) fun _ => Keeps.bind (Keeps.read _) fun s => ?_
  split
  · exact Keeps.throw _
  · split
    · exact Keeps.pure _
    · split
      · exact Keeps.pure _
      · exact Keeps.bind (condemn_quiet _ _) fun _ => Keeps.throw _

theorem stat_quiet (cid : JsString) : Keeps Quiet (stat cid) :=
  Keeps.bind (sound_quiet cid) fun _ => Keeps.pure _

theorem has_quiet (cid : JsString) : Keeps Quiet (has cid) :=
  Keeps.bind (sound_quiet cid) fun _ => Keeps.pure _

theorem name_quiet (row : ObjectRow) : Keeps Quiet (name row) := by
  unfold name
  split
  · split
    · exact Keeps.bind (Keeps.change fun _ => ⟨rfl, rfl, rfl⟩) fun _ => Keeps.pure _
    · split
      · exact Keeps.pure _
      · exact Keeps.bind (Keeps.change fun _ => ⟨rfl, rfl, rfl⟩) fun _ => Keeps.pure _
      · exact Keeps.pure _
  · exact Keeps.bind (Keeps.change fun _ => ⟨rfl, rfl, rfl⟩) fun _ => Keeps.pure _

/-! ## Acceptance -/

/-- What lands of an acceptance. -/
def landedOf (accepted : List (JsString × Acceptance)) : List JsString :=
  (accepted.filter fun a => a.2 != .kept).map Prod.fst

theorem unique_eq_ok {ρ : Type} {x : Except Sql.Fault (List ρ)} {rows : List ρ}
    (h : unique x = .ok rows) : x = .ok rows := by
  cases x
  · cases h
  · cases h
    rfl

theorem inserted_eq_ok {staged : Staged.Object} {tables tables' : ObjectTables}
    (h : inserted staged tables = .ok tables') :
    ∃ row : ObjectRow, ∃ chunks : List ChunkRow, row.cid = textColumn staged.cid.text ∧
      row.size = some (decimal staged.size) ∧ (∀ o ∈ tables.objects, o.rowid ≠ row.rowid) ∧
      (∀ c ∈ chunks, c.cid = textColumn staged.cid.text) ∧
      tables' = { tables with
        objects := tables.objects ++ [row]
        chunks := tables.chunks ++ chunks } := by
  rw [inserted, bind_eq_ok] at h
  obtain ⟨objects, hobjects, h⟩ := h
  rw [bind_eq_ok] at h
  obtain ⟨chunks, hchunks, h⟩ := h
  obtain ⟨hfresh, hobjects⟩ := Sql.insert_eq_ok (unique_eq_ok hobjects)
  obtain ⟨hchunks, -, -⟩ := Sql.insertAll_eq_ok (unique_eq_ok hchunks)
  cases h
  refine ⟨_, _, rfl, rfl, ?_, ?_, by rw [hobjects, hchunks]⟩
  · intro o ho hrowid
    have hclash := List.any_eq_false.mp hfresh o ho
    simp [ObjectRow.clash, hrowid] at hclash
  · intro c hc
    obtain ⟨-, -, rfl⟩ := List.mem_map.mp hc
    rfl

/-- What lies under another CID, where rows and chunks come under one. -/
theorem under_append {other : JsString} {rows : List ObjectRow} {chunks : List ChunkRow}
    (hne : textColumn cid ≠ textColumn other) (hrows : ∀ o ∈ rows, o.cid = textColumn cid)
    (hchunks : ∀ c ∈ chunks, c.cid = textColumn cid)
    (h : s'.tables.objects = s.tables.objects ++ rows)
    (h' : s'.tables.chunks = s.tables.chunks ++ chunks) : s'.under other = s.under other := by
  have hno : rows.filter (·.cid == textColumn other) = [] :=
    List.filter_eq_nil_iff.mpr fun o ho => by simp [hrows o ho, hne]
  have hno' : chunks.filter (·.cid == textColumn other) = [] :=
    List.filter_eq_nil_iff.mpr fun c hc => by simp [hchunks c hc, hne]
  rw [under, under, h, h', List.filter_append, List.filter_append, hno, hno', List.append_nil,
    List.append_nil]

theorem under_deleted {other : JsString} (hne : textColumn cid ≠ textColumn other)
    (h : s'.tables = deleted cid s.tables) : s'.under other = s.under other := by
  rw [under, under, h, deleted, Sql.delete, Sql.delete, List.filter_filter, List.filter_filter]
  congr 1 <;> refine List.filter_congr fun row _ => ?_
  · cases hrow : row.cid == textColumn other
    · rfl
    · simp [eq_of_beq hrow, hne.symm]
  · cases hrow : row.cid == textColumn other
    · rfl
    · simp [eq_of_beq hrow, hne.symm]

/-- What an insertion adds, and where. -/
theorem insert_ok {staged : Staged.Object} (h : insert staged s = (.ok (), s')) :
    s'.epochs = s.epochs ∧ s'.damage = s.damage ∧
      (∃ row : ObjectRow, ∃ chunks : List ChunkRow, row.cid = textColumn staged.cid.text ∧
        row.size = some (decimal staged.size) ∧ (∀ o ∈ s.tables.objects, o.rowid ≠ row.rowid) ∧
        (∀ c ∈ chunks, c.cid = textColumn staged.cid.text) ∧
        s'.tables.objects = s.tables.objects ++ [row] ∧
        s'.tables.chunks = s.tables.chunks ++ chunks) := by
  rw [insert, read_bind] at h
  cases hinserted : inserted staged s.tables with
  | error e =>
      rw [hinserted, Effect.lift_bind_error] at h
      cases h
  | ok tables =>
      obtain ⟨row, chunks, hcid, hsize, hrowid, hchunks, rfl⟩ := inserted_eq_ok hinserted
      rw [hinserted, lift_bind_ok, change_bind] at h
      cases h
      exact ⟨rfl, rfl, row, chunks, hcid, hsize, hrowid, hchunks, rfl, rfl⟩

/-- What acceptance writes beside the tables, however it ends. -/
structure Accepting (before after : SqliteObjectStore) : Prop where
  grows : Grows before after
  damage : after.damage = before.damage

instance : Std.Refl Accepting := ⟨fun s => ⟨Std.Refl.refl s, rfl⟩⟩

instance : IsTrans SqliteObjectStore Accepting :=
  ⟨fun _ _ _ h h' => ⟨IsTrans.trans _ _ _ h.1 h'.1, h'.2.trans h.2⟩⟩

theorem drop_accepting (token : Nat) : Keeps Accepting (drop token) :=
  Keeps.change fun _ => ⟨grows_of_epochs rfl, rfl⟩

theorem insert_accepting (staged : Staged.Object) : Keeps Accepting (insert staged) := by
  refine Keeps.bind (Keeps.read _) fun tables => Keeps.bind (Keeps.lift _) fun tables' => ?_
  exact Keeps.bind (Keeps.change fun s => ⟨grows_of_epochs rfl, rfl⟩) fun _ => drop_accepting _

theorem accept_accepting (staged : Staged.Object) : Keeps Accepting (accept staged) := by
  refine Keeps.bind (Keeps.read _) fun held => Keeps.bind (Keeps.read _) fun damaged => ?_
  split
  · exact Keeps.bind (drop_accepting _) fun _ => Keeps.pure _
  · split
    · refine Keeps.bind (Keeps.change fun s => ⟨grows_moved _ s, rfl⟩) fun _ => ?_
      refine Keeps.bind (Keeps.change fun s => ⟨grows_of_epochs rfl, rfl⟩) fun _ => ?_
      exact Keeps.bind (insert_accepting _) fun _ => Keeps.pure _
    · exact Keeps.bind (insert_accepting _) fun _ => Keeps.pure _

theorem holds_iff_any : s.Holds cid ↔ s.tables.objects.any (·.cid == textColumn cid) = true := by
  rw [Holds, under, ne_eq, List.filter_eq_nil_iff, List.any_eq_true]
  push Not
  exact Iff.rfl

/-- An acceptance lands under its CID alone, and leaves what is known of damage. -/
structure Accepts (staged : Staged.Object) (before after : SqliteObjectStore)
    (acceptance : Acceptance) : Prop where
  damage : after.damage = before.damage
  held : after.Holds staged.cid.text
  others : ∀ other : DaslCid, other.text ≠ staged.cid.text →
    after.under other.text = before.under other.text
  kept : acceptance = .kept → Quiet before after ∧ before.damage.has staged.cid.text = false
  new : acceptance = .new → ¬ before.Holds staged.cid.text
  repaired : acceptance = .repaired →
    after.epoch staged.cid.text = before.epoch staged.cid.text + 1
  rowids : (before.tables.objects.map ObjectRow.rowid).Nodup →
    (after.tables.objects.map ObjectRow.rowid).Nodup

theorem nodup_rowid_append {rows : List ObjectRow} {row : ObjectRow}
    (h : (rows.map ObjectRow.rowid).Nodup) (hrow : ∀ o ∈ rows, o.rowid ≠ row.rowid) :
    ((rows ++ [row]).map ObjectRow.rowid).Nodup := by
  rw [List.map_append, List.map_cons, List.map_nil]
  refine List.nodup_append.mpr ⟨h, List.nodup_singleton _, ?_⟩
  intro rowid hrowid other hother
  obtain ⟨o, ho, rfl⟩ := List.mem_map.mp hrowid
  rw [List.mem_singleton.mp hother]
  exact hrow o ho

theorem nodup_rowid_delete {rows : List ObjectRow} (which : ObjectRow → Bool)
    (h : (rows.map ObjectRow.rowid).Nodup) :
    ((Sql.delete which rows).map ObjectRow.rowid).Nodup :=
  h.sublist (List.filter_sublist.map _)

theorem accept_ok {staged : Staged.Object} {acceptance : Acceptance}
    (h : accept staged s = (.ok acceptance, s')) : Accepts staged s s' acceptance := by
  rw [accept, read_bind, read_bind] at h
  have hkey {other : DaslCid} (hother : other.text ≠ staged.cid.text) :
      textColumn staged.cid.text ≠ textColumn other.text := fun heq => hother (key_inj heq).symm
  have hnew {held : List ObjectRow} {row : ObjectRow} (hrow : row.cid = textColumn staged.cid.text)
      (hobjects : s'.tables.objects = held ++ [row]) : s'.Holds staged.cid.text := by
    rw [holds_iff_any, hobjects]
    simp [hrow]
  split at h
  · next hkept =>
      rw [Bool.and_eq_true, Bool.not_eq_true'] at hkept
      have hdrop : drop staged.token s = (.ok (), (drop staged.token s).2) := rfl
      rw [bind_run hdrop] at h
      cases h
      have hquiet : Quiet s (drop staged.token s).2 := drop_quiet _ s
      refine ⟨rfl, ?_, fun other _ => hquiet.under _, fun _ => ⟨hquiet, hkept.2⟩,
        (by cases ·), (by cases ·), ?_⟩
      · rw [Holds, hquiet.under]
        exact holds_iff_any.mpr hkept.1
      · rw [hquiet.objects]
        exact id
  · split at h
    · next hheld =>
        rw [SqliteObjectStore.move, change_bind, change_bind] at h
        obtain ⟨u, _, hinsert, h⟩ := bind_ok h
        cases h
        obtain ⟨hepochs, hdamage, row, chunks, hcid, -, hrowid, hchunks, hobjects, hchunks'⟩ :=
          insert_ok hinsert
        refine ⟨hdamage, hnew hcid hobjects, ?_, (by cases ·), (by cases ·), fun _ => ?_, ?_⟩
        · intro other hother
          rw [under_append (hkey hother) (by simpa using hcid) hchunks hobjects hchunks']
          exact under_deleted (hkey hother) rfl
        · have hmoved := epoch_moved s staged.cid.text staged.cid.text
          rw [if_pos rfl] at hmoved
          rw [← hmoved, epoch, epoch, hepochs]
        · intro hrowids
          rw [hobjects]
          exact nodup_rowid_append (nodup_rowid_delete _ hrowids) hrowid
    · next hkept hheld =>
        obtain ⟨u, _, hinsert, h⟩ := bind_ok h
        cases h
        obtain ⟨-, hdamage, row, chunks, hcid, -, hrowid, hchunks, hobjects, hchunks'⟩ :=
          insert_ok hinsert
        refine ⟨hdamage, hnew hcid hobjects, ?_, (by cases ·), fun _ => ?_, (by cases ·), ?_⟩
        · intro other hother
          exact under_append (hkey hother) (by simpa using hcid) hchunks hobjects hchunks'
        · rw [holds_iff_any]
          exact hheld
        · intro hrowids
          rw [hobjects]
          exact nodup_rowid_append hrowids hrowid

theorem Accepts.spares {staged : Staged.Object} {acceptance : Acceptance}
    (h : Accepts staged s s' acceptance) (hgrows : Grows s s') :
    Spares s s' (landedOf [(staged.cid.text, acceptance)]) where
  grows := hgrows
  rowids := h.rowids
  stored cid hcid hheld hepoch := by
    obtain ⟨other, rfl⟩ := cidText_text hcid
    by_cases hother : other.text = staged.cid.text
    · rw [hother] at hheld hepoch ⊢
      cases acceptance with
      | new => exact absurd hheld (h.new rfl)
      | repaired =>
          have hmoved := h.repaired rfl
          omega
      | kept => exact ⟨(h.kept rfl).1.under _, List.not_mem_nil⟩
    · refine ⟨h.others other hother, fun hmem => hother ?_⟩
      obtain ⟨a, ha, htext⟩ := List.mem_map.mp hmem
      rw [List.mem_singleton.mp (List.mem_filter.mp ha).1] at htext
      exact htext.symm

/-- Staged objects accepted one after the other. -/
inductive AcceptsAll : List Staged.Object → SqliteObjectStore → SqliteObjectStore →
    List (JsString × Acceptance) → Prop
  | nil {s : SqliteObjectStore} : AcceptsAll [] s s []
  | cons {staged : Staged.Object} {rest : List Staged.Object} {s s' s'' : SqliteObjectStore}
      {acceptance : Acceptance} {accepted : List (JsString × Acceptance)}
      (first : Accepts staged s s' acceptance) (grows : Grows s s')
      (others : AcceptsAll rest s' s'' accepted) :
      AcceptsAll (staged :: rest) s s'' ((staged.cid.text, acceptance) :: accepted)

theorem AcceptsAll.spares {staged : List Staged.Object} {accepted : List (JsString × Acceptance)}
    (h : AcceptsAll staged s s' accepted) : Spares s s' (landedOf accepted) := by
  induction h with
  | nil => exact (Std.Refl.refl _ : Quiet _ _).spares
  | cons first grows _ ih =>
      have hspares := (first.spares grows).trans ih
      rwa [landedOf, landedOf, ← List.map_append, ← List.filter_append] at hspares

end SqliteObjectStore

/-! ## Publication -/

namespace SqlitePreparation

open SqliteObjectStore

variable {p p' : Preparing}

/-- A relation of the stores of two preparations. -/
abbrev Store (R : SqliteObjectStore → SqliteObjectStore → Prop) : Preparing → Preparing → Prop :=
  InvImage R Preparing.store

instance {R : SqliteObjectStore → SqliteObjectStore → Prop} [Std.Refl R] : Std.Refl (Store R) :=
  ⟨fun _ => Std.Refl.refl (r := R) _⟩

theorem onStore_keeps {R : SqliteObjectStore → SqliteObjectStore → Prop} {α : Type}
    {x : SqliteObjectStore.Work α} (h : Keeps R x) : Keeps (Store R) (onStore x) := fun p => h p.store

theorem onStore_run {α : Type} {x : SqliteObjectStore.Work α} {result : Except ObjectError α}
    (h : onStore x p = (result, p')) : x p.store = (result, p'.store) ∧ p'.prepared = p.prepared := by
  cases h
  exact ⟨rfl, rfl⟩

theorem update_keeps {R : SqliteObjectStore → SqliteObjectStore → Prop} [Std.Refl R]
    (f : SqlitePreparation → SqlitePreparation) : Keeps (Store R) (update f) :=
  Keeps.change fun _ => Std.Refl.refl (r := R) _

theorem acceptAll_ok {staged : List Staged.Object} {accepted : List (JsString × Acceptance)}
    (h : acceptAll staged p = (.ok accepted, p')) :
    AcceptsAll staged p.store p'.store accepted ∧
      p'.prepared = { p.prepared with
        repaired := p.prepared.repaired ++
          (accepted.filter fun a => a.2 = .repaired).map Prod.fst } := by
  induction staged generalizing p accepted with
  | nil =>
      cases h
      exact ⟨.nil, by simp⟩
  | cons object staged ih =>
      rw [acceptAll] at h
      obtain ⟨acceptance, q, haccept, h⟩ := bind_ok h
      obtain ⟨hstore, hprepared⟩ := onStore_run haccept
      rw [note, update, change_bind] at h
      obtain ⟨rest, q', hrest, h⟩ := bind_ok h
      cases h
      obtain ⟨hall, hnote⟩ := ih hrest
      have hgrows : Grows p.store q.store := by
        have hkeeps := (accept_accepting object p.store).grows
        rwa [hstore] at hkeeps
      refine ⟨.cons (accept_ok hstore) hgrows hall, ?_⟩
      rw [hnote, hprepared]
      cases acceptance <;> simp

theorem checkAll_ok {cids : List JsString} {u : Unit} (h : checkAll cids p = (.ok u, p')) :
    p' = p ∧ ∀ cid ∈ cids, p.store.damage.has cid = false := by
  induction cids with
  | nil =>
      cases h
      exact ⟨rfl, fun _ h => (by cases h)⟩
  | cons cid cids ih =>
      rw [checkAll] at h
      obtain ⟨_, q, hcheck, h⟩ := bind_ok h
      rw [check, read_bind] at hcheck
      split at hcheck
      · cases hcheck
      · next hdamaged =>
          cases hcheck
          obtain ⟨hp, hcids⟩ := ih h
          exact ⟨hp, List.forall_mem_cons.mpr ⟨by simpa using hdamaged, hcids⟩⟩

theorem checkAll_keeps {R : SqliteObjectStore → SqliteObjectStore → Prop} [Std.Refl R]
    [IsTrans SqliteObjectStore R] (cids : List JsString) : Keeps (Store R) (checkAll cids) := by
  induction cids with
  | nil => exact Keeps.pure _
  | cons cid cids ih =>
      refine Keeps.bind (Keeps.bind (Keeps.read _) fun damaged => ?_) fun _ => ih
      split
      · exact Keeps.throw _
      · exact Keeps.pure _

theorem acceptAll_accepting (staged : List Staged.Object) :
    Keeps (Store Accepting) (acceptAll staged) := by
  induction staged with
  | nil => exact Keeps.pure _
  | cons object staged ih =>
      refine Keeps.bind (onStore_keeps (accept_accepting object)) fun _ => ?_
      exact Keeps.bind (update_keeps _) fun _ => Keeps.bind ih fun _ => Keeps.pure _

theorem publish_accepting : Keeps (Store Accepting) publish := by
  refine Keeps.bind (Keeps.bind (Keeps.read _) fun _ => Keeps.lift _) fun _ => ?_
  refine Keeps.bind (Keeps.read _) fun prepared => Keeps.bind (Keeps.lift _) fun _ => ?_
  refine Keeps.bind (update_keeps _) fun _ => Keeps.bind (checkAll_keeps _) fun _ => ?_
  exact acceptAll_accepting _

/-- A publication that does not throw: nothing reused was known damaged, and all that was
staged is accepted. -/
structure Publishes (p p' : Preparing) (accepted : List (JsString × Acceptance)) : Prop where
  staging : p.prepared.phase = .staging
  settled : p.prepared.reading = 0
  reused : ∀ cid ∈ p.prepared.reused, p.prepared.staged.has cid = false →
    p.store.damage.has cid = false
  accepts : AcceptsAll p.prepared.staged.values p.store p'.store accepted
  prepared : p'.prepared = { p.prepared with
    phase := .published
    repaired := p.prepared.repaired ++ (accepted.filter fun a => a.2 = .repaired).map Prod.fst }

theorem publish_ok {accepted : List (JsString × Acceptance)} (h : publish p = (.ok accepted, p')) :
    Publishes p p' accepted := by
  rw [publish] at h
  obtain ⟨_, q, hadmit, h⟩ := bind_ok h
  rw [admit_, read_bind] at hadmit
  cases hphase : p.prepared.phase <;> rw [hphase] at hadmit <;> cases hadmit
  rw [read_bind] at h
  obtain ⟨_, q, hreading, h⟩ := bind_ok h
  rw [stillReading] at hreading
  split at hreading
  · cases hreading
  · next hsettled =>
      cases hreading
      rw [update, change_bind] at h
      obtain ⟨_, q, hcheck, h⟩ := bind_ok h
      obtain ⟨rfl, hcids⟩ := checkAll_ok hcheck
      obtain ⟨haccepts, hprepared⟩ := acceptAll_ok h
      refine ⟨hphase, Nat.eq_zero_of_not_pos hsettled, fun cid hcid hstaged => ?_, haccepts, hprepared⟩
      exact hcids cid (List.mem_filter.mpr ⟨hcid, by simpa using hstaged⟩)

/-- A transaction lands what it published, or nothing of it. -/
theorem transaction_cases {α : Type} (more : Except ObjectError α) (p : Preparing) :
    (∃ accepted a p', transaction more p = (.ok (accepted, a), p') ∧ more = .ok a ∧
      Publishes p p' accepted) ∨
    ∃ e p', transaction more p = (.error e, p') ∧ p'.store.tables = p.store.tables ∧
      Accepting p.store p'.store := by
  have hkeeps : Keeps (Store Accepting) (publish >>= fun accepted =>
      Effect.lift more >>= fun a => pure (accepted, a)) :=
    Keeps.bind publish_accepting fun _ => Keeps.bind (Keeps.lift _) fun _ => Keeps.pure _
  have hp := hkeeps p
  rw [transaction, Effect.atomically]
  rcases hrun : (publish >>= fun accepted => Effect.lift more >>= fun a => pure (accepted, a)) p
    with ⟨e | ⟨accepted, a⟩, p'⟩
  · rw [hrun] at hp
    exact .inr ⟨e, _, rfl, rfl, hp.grows, hp.damage⟩
  · refine .inl ⟨accepted, a, p', rfl, ?_⟩
    obtain ⟨accepted', q, hpublish, hmore⟩ := bind_ok hrun
    obtain ⟨a', q', hlift, hpure⟩ := bind_ok hmore
    cases hpure
    cases hlift
    exact ⟨rfl, publish_ok hpublish⟩

theorem spares_of_tables {s s' : SqliteObjectStore} (htables : s'.tables = s.tables)
    (hgrows : Grows s s') : Spares s s' [] where
  grows := hgrows
  stored cid _ _ _ := by
    refine ⟨?_, List.not_mem_nil⟩
    rw [under, under, htables]
  rowids h := by
    rw [htables]
    exact h

end SqlitePreparation

/-! ## Collection -/

namespace SqliteObjectStore

variable {s s' : SqliteObjectStore} {cid : JsString}

/-- The row of an object is named by its CID. -/
theorem name_of_key {row : ObjectRow} {parsed : DaslCid} (hparsed : rawCidOf cid = .ok parsed)
    (hrow : row.cid = textColumn cid) : name row s = (.ok (some cid), s) := by
  have htext := rawCidOf_text hparsed
  have hplain : ∀ u ∈ cid, PlainUnit u := htext ▸ plain_text parsed
  rw [name, hrow, textColumn]
  dsimp only
  rw [decodeText_encode hplain]
  dsimp only
  rw [hparsed]
  dsimp only
  rw [htext]
  rfl

/-- A removal of a row under another key leaves what is stored. -/
theorem under_remove {row : ObjectRow} {s' : SqliteObjectStore} {u : Unit}
    (hremove : remove row s = (.ok u, s')) (hrow : row.cid ≠ textColumn cid)
    (hrowids : ∀ o ∈ s.tables.objects, o.rowid = row.rowid → o.cid = row.cid) :
    s'.under cid = s.under cid := by
  cases hremove
  simp only [under, Sql.delete, List.filter_filter]
  congr 1
  · refine List.filter_congr fun o ho => ?_
    cases hkey : o.cid == textColumn cid
    · rfl
    · have hne : o.rowid ≠ row.rowid := fun h => hrow ((hrowids o ho h).symm.trans (eq_of_beq hkey))
      simp [hne]
  · refine List.filter_congr fun c _ => ?_
    cases hkey : c.cid == textColumn cid
    · rfl
    · rw [Bool.true_and, Bool.not_eq_true', List.any_eq_false]
      intro o ho hboth
      rw [Bool.and_eq_true, beq_iff_eq, beq_iff_eq] at hboth
      exact hrow ((hrowids o ho hboth.1).symm.trans (hboth.2.trans (eq_of_beq hkey)))

theorem removeRows_ok {kept removed : List JsString} {rows : List ObjectRow}
    (h : removeRows kept rows s = (.ok removed, s'))
    (hrowids : ∀ row ∈ rows, ∀ o ∈ s.tables.objects, o.rowid = row.rowid → o.cid = row.cid) :
    s'.epochs = s.epochs ∧ s'.tables.objects.Sublist s.tables.objects ∧
      ∀ cid, CidText cid → cid ∉ removed → s'.under cid = s.under cid := by
  induction rows generalizing s removed with
  | nil =>
      cases h
      exact ⟨rfl, .refl _, fun _ _ _ => rfl⟩
  | cons row rows ih =>
      obtain ⟨hrow, hrows⟩ := List.forall_mem_cons.mp hrowids
      rw [removeRows] at h
      obtain ⟨named, q, hname, h⟩ := bind_ok h
      have hquiet : Quiet s q := by
        have hkeeps := name_quiet row s
        rwa [hname] at hkeeps
      -- the rows that come after, over what is left of the table
      have hrest {t : SqliteObjectStore} (hsub : t.tables.objects.Sublist s.tables.objects) :
          ∀ row ∈ rows, ∀ o ∈ t.tables.objects, o.rowid = row.rowid → o.cid = row.cid :=
        fun row hrow o ho => hrows row hrow o (hsub.subset ho)
      have hqsub : q.tables.objects.Sublist s.tables.objects := by
        rw [hquiet.objects]
      have hqrow : ∀ o ∈ q.tables.objects, o.rowid = row.rowid → o.cid = row.cid :=
        fun o ho => hrow o (hqsub.subset ho)
      cases named with
      | none =>
          dsimp only at h
          obtain ⟨u, t, hremove, h⟩ := bind_ok h
          rw [change_bind] at h
          have htsub : t.tables.objects.Sublist q.tables.objects := by
            cases hremove
            exact List.filter_sublist
          obtain ⟨hepochs, hsub, hunder⟩ := ih h (hrest (htsub.trans hqsub))
          refine ⟨?_, hsub.trans (htsub.trans hqsub), fun cid hcid hnot => ?_⟩
          · rw [hepochs, ← hquiet.epochs]
            cases hremove
            rfl
          · have hne : row.cid ≠ textColumn cid := by
              intro hkey
              obtain ⟨parsed, hparsed⟩ := hcid
              rw [name_of_key hparsed hkey] at hname
              cases hname
            refine (hunder cid hcid hnot).trans ?_
            exact (under_remove hremove hne hqrow).trans (hquiet.under cid)
      | some name =>
          dsimp only at h
          split at h
          · obtain ⟨hepochs, hsub, hunder⟩ := ih h (hrest hqsub)
            refine ⟨hepochs.trans hquiet.epochs, hsub.trans hqsub, fun cid hcid hnot => ?_⟩
            exact (hunder cid hcid hnot).trans (hquiet.under cid)
          · obtain ⟨u, t, hremove, h⟩ := bind_ok h
            obtain ⟨removed', t', hrest', h⟩ := bind_ok h
            cases h
            have htsub : t.tables.objects.Sublist q.tables.objects := by
              cases hremove
              exact List.filter_sublist
            obtain ⟨hepochs, hsub, hunder⟩ := ih hrest' (hrest (htsub.trans hqsub))
            refine ⟨?_, hsub.trans (htsub.trans hqsub), fun cid hcid hnot => ?_⟩
            · rw [hepochs, ← hquiet.epochs]
              cases hremove
              rfl
            · obtain ⟨hname', hnot⟩ := not_or.mp (fun h => hnot (List.mem_cons.mpr h))
              have hne : row.cid ≠ textColumn cid := by
                intro hkey
                obtain ⟨parsed, hparsed⟩ := hcid
                rw [name_of_key hparsed hkey] at hname
                cases hname
                exact hname' rfl
              refine (hunder cid hcid hnot).trans ?_
              exact (under_remove hremove hne hqrow).trans (hquiet.under cid)

theorem forget_ok {cids : List JsString} {u : Unit} (h : forget cids s = (.ok u, s')) :
    s'.tables = s.tables ∧ Grows s s' ∧ ∀ cid ∈ cids, s.epoch cid < s'.epoch cid := by
  induction cids generalizing s with
  | nil =>
      cases h
      exact ⟨rfl, Std.Refl.refl _, fun _ h => (by cases h)⟩
  | cons cid cids ih =>
      rw [forget, SqliteObjectStore.move, change_bind, change_bind] at h
      obtain ⟨htables, hgrows, hmoved⟩ := ih h
      have hstep : Grows s { moved cid s with damage := (moved cid s).damage.erase cid } := grows_moved cid s
      refine ⟨htables, IsTrans.trans _ _ _ hstep hgrows, List.forall_mem_cons.mpr ⟨?_, ?_⟩⟩
      · have hcid := epoch_moved s cid cid
        have hle := hgrows cid
        rw [if_pos rfl] at hcid
        exact lt_of_lt_of_le (hcid ▸ Nat.lt_succ_self _) hle
      · intro other hother
        exact lt_of_le_of_lt (hstep other) (hmoved other hother)

theorem name_runs (row : ObjectRow) : Runs (name row) := by
  unfold name
  split
  · split
    · exact Runs.bind (Runs.change _) fun _ => Runs.pure _
    · split
      · exact Runs.pure _
      · exact Runs.bind (Runs.change _) fun _ => Runs.pure _
      · exact Runs.pure _
  · exact Runs.bind (Runs.change _) fun _ => Runs.pure _

theorem removeRows_runs (kept : List JsString) (rows : List ObjectRow) :
    Runs (removeRows kept rows) := by
  induction rows with
  | nil => exact Runs.pure _
  | cons row rows ih =>
      refine Runs.bind (name_runs row) fun named => ?_
      cases named with
      | none => exact Runs.bind (Runs.change _) fun _ => Runs.bind (Runs.change _) fun _ => ih
      | some name =>
          dsimp only
          split
          · exact ih
          · exact Runs.bind (Runs.change _) fun _ => Runs.bind ih fun _ => Runs.pure _

theorem forget_runs (cids : List JsString) : Runs (forget cids) := by
  induction cids with
  | nil => exact Runs.pure _
  | cons cid cids ih =>
      exact Runs.bind (Runs.change _) fun _ => Runs.bind (Runs.change _) fun _ => ih

/-- A collection that removes nothing leaves the store; another removes what it says. -/
theorem collect_cases (keep : List JsString) (s : SqliteObjectStore) :
    (∃ removed s', collect keep s = (.ok removed, s') ∧
      ((s.tables.objects.map ObjectRow.rowid).Nodup → Spares s s' removed)) ∨
    ∃ e, collect keep s = (.error e, s) := by
  rw [collect, requireWritable]
  cases hwritable : s.writable with
  | false =>
      refine .inr ⟨.readOnlyVault (Json.lit "collect"), ?_⟩
      refine Effect.bind_throw ?_
      rw [read_bind, hwritable]
      rfl
  | true =>
      have hrun : (do
          let writable ← Effect.read SqliteObjectStore.writable
          if writable then pure () else throw (.readOnlyVault (Json.lit "collect")) : Work Unit) s =
          (.ok (), s) := by
        rw [read_bind, hwritable]
        rfl
      rw [bind_run hrun]
      cases hkept : keep.mapM rawCidOf with
      | error e => exact .inr ⟨e, Effect.lift_bind_error _ _ _⟩
      | ok kept =>
          rw [lift_bind_ok]
          obtain ⟨removed, q, hremoved⟩ :=
            removeRows_runs (kept.map DaslCid.text) s.tables.objects s
          obtain ⟨u, s', hforget⟩ := forget_runs removed q
          have htransaction : Effect.atomically rollback (do
              let rows ← Effect.read fun s => s.tables.objects
              removeRows (kept.map DaslCid.text) rows) s = (.ok removed, q) := by
            rw [Effect.atomically, read_bind, hremoved]
          rw [bind_run htransaction, bind_run hforget]
          refine .inl ⟨_, _, rfl, fun hrowids => ?_⟩
          have hkeys : ∀ row ∈ s.tables.objects, ∀ o ∈ s.tables.objects,
              o.rowid = row.rowid → o.cid = row.cid := by
            intro row hrow o ho hrowid
            rw [List.inj_on_of_nodup_map hrowids ho hrow hrowid]
          obtain ⟨hepochs, hsub, hunder⟩ := removeRows_ok hremoved hkeys
          obtain ⟨htables, hgrows, hmoved⟩ := forget_ok hforget
          have hepoch (cid : JsString) : q.epoch cid = s.epoch cid := by
            rw [epoch, epoch, hepochs]
          refine ⟨fun cid => (hepoch cid).ge.trans (hgrows cid), fun cid hcid _ hsame => ?_, fun _ => ?_⟩
          · have hnot : cid ∉ removed := fun hmem => by
              have := hmoved cid hmem
              have := hepoch cid
              omega
            refine ⟨?_, fun hmem => hnot ?_⟩
            · rw [under, htables]
              exact hunder cid hcid hnot
            · rw [sortCids, Cmp.mem_sortBy, List.mem_dedup] at hmem
              exact hmem
          · rw [htables]
            exact hrowids.sublist (hsub.map _)

/-! ## Reads -/

theorem find_row (cid : JsString) (s : SqliteObjectStore) :
    s.tables.objects.find? (·.cid == textColumn cid) = (s.under cid).objects.head? := by
  rw [under, ← List.head?_filter]

theorem find_chunk (cid : JsString) (chunkNo : Nat) (s : SqliteObjectStore) :
    s.tables.chunks.find? (fun c => c.cid == textColumn cid && c.chunkNo == chunkNo) =
      (s.under cid).chunks.find? (·.chunkNo == chunkNo) := by
  rw [under, List.find?_filter]
  simp only [Bool.decide_and, Bool.decide_eq_true]

/-- A read that starts on an object has its size and its epoch; one that finds damage finds
it in the row there is. -/
theorem sound_cases (cid : JsString) (s : SqliteObjectStore) :
    (∃ present, sound cid s = (.ok (some present), s) ∧ CidText cid ∧ s.Holds cid ∧
      (s.under cid).size = some present.size ∧ present.epoch = s.epoch cid) ∨
    sound cid s = (.ok none, s) ∨ (∃ e, sound cid s = (.error e, s)) ∨
    ∃ e error, sound cid s = (.error e, condemned cid error s) ∧ s.Holds cid := by
  rw [sound]
  cases hcid : rawCidOf cid with
  | error e => exact .inr (.inr (.inl ⟨e, Effect.lift_bind_error _ _ _⟩))
  | ok parsed =>
      rw [lift_bind_ok, read_bind]
      dsimp only [id]
      split
      · exact .inr (.inr (.inl ⟨_, rfl⟩))
      · rw [find_row]
        cases hrow : (s.under cid).objects.head? with
        | none => exact .inr (.inl rfl)
        | some row =>
            have hheld : s.Holds cid := fun hnil => by
              rw [hnil] at hrow
              cases hrow
            cases hsize : row.size.bind countOf with
            | none => exact .inr (.inr (.inr ⟨_, _, by dsimp only; rw [hsize]; rfl, hheld⟩))
            | some size =>
                refine .inl ⟨⟨size, s.epoch cid⟩, by dsimp only; rw [hsize]; rfl, ⟨parsed, hcid⟩, hheld,
                  ?_, rfl⟩
                rw [Stored.size, hrow]
                exact hsize

/-- A chunk that comes next is the one stored, as long as the layout gives it. -/
theorem nextChunk_cases (read : ObjectRead) (s : SqliteObjectStore) :
    (∃ bytes, nextChunk read s = (.ok (some bytes, { read with
        chunks := read.chunks + 1
        got := read.got + bytes.length
        hashed := read.hashed ++ bytes }), s) ∧
      (s.under read.cid).chunk read.chunks = some bytes ∧
      bytes.length = min CHUNK_BYTES (read.size - read.got)) ∨
    ∃ e error, nextChunk read s = (.error e, condemned read.cid error s) := by
  rw [nextChunk, read_bind, find_chunk]
  cases hfind : (s.under read.cid).chunks.find? (·.chunkNo == read.chunks) with
  | none => exact .inr ⟨_, _, rfl⟩
  | some found =>
      dsimp only
      split
      · exact .inr ⟨_, _, rfl⟩
      · next hlength =>
          cases hbytes : found.bytes with
          | other length => exact .inr ⟨_, _, rfl⟩
          | blob bytes =>
              refine .inl ⟨bytes, rfl, ?_, ?_⟩
              · rw [Stored.chunk, hfind]
                dsimp only [bind, Option.bind]
                rw [hbytes]
              · rw [hbytes, Cell.length, ne_eq, not_not, Option.some.injEq] at hlength
                exact hlength

/-- A read whose bytes end was of as many chunks as are stored, and hashes to its CID. -/
theorem verify_cases {P : Packages} {read : ObjectRead} {parsed : DaslCid}
    (hcid : rawCidOf read.cid = .ok parsed) (s : SqliteObjectStore) :
    (verify P read s = (.ok (none, read), s) ∧ (s.under read.cid).chunks.length = read.chunks ∧
      (P.sha256 read.hashed).bytes = parsed.digest) ∨
    ∃ e error, verify P read s = (.error e, condemned read.cid error s) := by
  rw [verify, read_bind]
  split
  · exact .inr ⟨_, _, rfl⟩
  · next hcount =>
      rw [hcid, lift_bind_ok]
      split
      · exact .inr ⟨_, _, rfl⟩
      · next hdigest => exact .inl ⟨rfl, not_not.mp hcount, not_not.mp hdigest⟩

/-- A step of a read: refused where the epoch has moved; else it takes the next chunk, or
finds the object whole, or finds it damaged. -/
theorem next_cases {P : Packages} {read : ObjectRead} {parsed : DaslCid}
    (hcid : rawCidOf read.cid = .ok parsed) (s : SqliteObjectStore) :
    (∃ e, next_ P read s = (.error e, s)) ∨
    s.epoch read.cid = read.epoch ∧
      ((∃ e error, next_ P read s = (.error e, condemned read.cid error s)) ∨
      (read.got < read.size ∧ ∃ bytes, next_ P read s = (.ok (some bytes, { read with
          chunks := read.chunks + 1
          got := read.got + bytes.length
          hashed := read.hashed ++ bytes }), s) ∧
        (s.under read.cid).chunk read.chunks = some bytes ∧
        bytes.length = min CHUNK_BYTES (read.size - read.got)) ∨
      (read.size ≤ read.got ∧ next_ P read s = (.ok (none, read), s) ∧
        (s.under read.cid).chunks.length = read.chunks ∧
        (P.sha256 read.hashed).bytes = parsed.digest)) := by
  rw [next_, read_bind]
  dsimp only [id]
  split
  · exact .inl ⟨_, rfl⟩
  · next hepoch =>
      refine .inr ⟨not_not.mp hepoch, ?_⟩
      split
      · next hsize =>
          rcases nextChunk_cases read s with ⟨bytes, hrun, hchunk, hlength⟩ | hdamaged
          · exact .inr (.inl ⟨hsize, bytes, hrun, hchunk, hlength⟩)
          · exact .inl hdamaged
      · next hsize =>
          rcases verify_cases hcid s with ⟨hrun, hcount, hdigest⟩ | hdamaged
          · exact .inr (.inr ⟨Nat.le_of_not_lt hsize, hrun, hcount, hdigest⟩)
          · exact .inl hdamaged

end SqliteObjectStore

/-! ## A preparation beside its publication -/

namespace SqlitePreparation

open SqliteObjectStore

theorem admit_keeps {R : SqliteObjectStore → SqliteObjectStore → Prop} [Std.Refl R]
    [IsTrans SqliteObjectStore R] (what : JsString) (staging : Bool) :
    Keeps (Store R) (admit_ what staging) := Keeps.bind (Keeps.read _) fun _ => Keeps.lift _

theorem put_quiet (want : Option DaslCid) : Keeps (Store Quiet) (put want) :=
  Keeps.bind (update_keeps _) fun _ => onStore_keeps (begin_quiet want)

theorem putObject_quiet (cid : JsString) : Keeps (Store Quiet) (putObject cid) := by
  refine Keeps.bind (admit_keeps _ _) fun _ => Keeps.bind (Keeps.lift _) fun want => ?_
  exact Keeps.bind (onStore_keeps (requireWritable_quiet _)) fun _ => put_quiet _

theorem putRaw_quiet : Keeps (Store Quiet) putRaw :=
  Keeps.bind (admit_keeps _ _) fun _ =>
    Keeps.bind (onStore_keeps (requireWritable_quiet _)) fun _ => put_quiet _

theorem hold_quiet (staged : Staged.Object) : Keeps (Store Quiet) (hold staged) := by
  refine Keeps.bind (Keeps.read _) fun before => ?_
  split
  · exact Keeps.bind (onStore_keeps (drop_quiet _)) fun _ => update_keeps _
  · exact update_keeps _

theorem has_quiet (cid : JsString) : Keeps (Store Quiet) (has cid) := by
  refine Keeps.bind (admit_keeps _ _) fun _ => Keeps.bind (Keeps.lift _) fun _ => ?_
  refine Keeps.bind (Keeps.read _) fun staged => ?_
  split
  · exact Keeps.pure _
  · exact onStore_keeps (SqliteObjectStore.has_quiet cid)

theorem reuse_quiet (cid : JsString) : Keeps (Store Quiet) (reuse cid) :=
  Keeps.bind (admit_keeps _ _) fun _ => Keeps.bind (Keeps.lift _) fun _ => update_keeps _

theorem forgiveAll_quiet (cids : List JsString) : Keeps (Store Quiet) (forgiveAll cids) := by
  induction cids with
  | nil => exact Keeps.pure _
  | cons cid cids ih => exact Keeps.bind (Keeps.change fun _ => ⟨rfl, rfl, rfl⟩) fun _ => ih

theorem dropAll_quiet (staged : List Staged.Object) : Keeps (Store Quiet) (dropAll staged) := by
  induction staged with
  | nil => exact Keeps.pure _
  | cons object staged ih => exact Keeps.bind (onStore_keeps (drop_quiet _)) fun _ => ih

theorem finishUp_quiet : Keeps (Store Quiet) finishUp := by
  refine Keeps.bind (Keeps.read _) fun prepared => ?_
  split
  · exact Keeps.bind (forgiveAll_quiet _) fun _ => update_keeps _
  · exact Keeps.bind (dropAll_quiet _) fun _ => update_keeps _

end SqlitePreparation

end Estoc.EventStore
