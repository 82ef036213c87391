import Mathlib.Data.List.Find
import Estoc.EventStore.Log
import Estoc.EventStore.SqliteEvents

/-!
# The store over SQLite is a log

The two tables hold the events of a log by position. Every row decodes to the event it
was inserted for, so no call meets damage, and what SQL narrows and orders is what the
filter and the canonical order say.
-/

set_option linter.unusedSectionVars false

namespace Estoc.EventStore

open Utf16 (JsString encodeUtf8)
open Effect (bind_run read_bind lift_bind_ok)

namespace SqliteEventStore

/-! ## The rows of a log -/

/-- A held event with its position, and its row. -/
def row (p : Held × Nat) : EventRow := rowOf p.2 p.1.event p.1.bytes

def positionRow (p : Held × Nat) : PositionRow := ⟨p.2, textColumn p.1.cid⟩

/-- The events of a log with their positions, from 1. -/
def numbered (log : Log) : List (Held × Nat) := log.zipIdx 1

def tablesOf (log : Log) : EventTables :=
  ⟨(numbered log).map row, (numbered log).map positionRow, some log.length⟩

/-- The store holds the events of a log, and has met no damage. -/
structure Holds (store : SqliteEventStore) (log : Log) : Prop where
  writable : store.writable = true
  tables : store.tables = tablesOf log
  damage : store.damage = none
  known : store.known = []

variable {P : Packages} {store : SqliteEventStore} {log : Log}

theorem holds_new (author generation : JsString) : (new author generation).Holds [] :=
  ⟨rfl, rfl, rfl, rfl⟩

theorem Holds.surveyed (h : store.Holds log) (surveyed : Bool) :
    Holds { store with surveyed } log := ⟨h.writable, h.tables, h.damage, h.known⟩

theorem Holds.events (h : store.Holds log) : store.tables.events = (numbered log).map row := by
  rw [h.tables]
  rfl

theorem Holds.positions (h : store.Holds log) :
    store.tables.positions = (numbered log).map positionRow := by
  rw [h.tables]
  rfl

theorem Holds.lastSeq (h : store.Holds log) : store.tables.lastSeq = some log.length := by
  rw [h.tables]
  rfl

theorem numbered_snoc (held : Held) :
    numbered (log ++ [held]) = numbered log ++ [(held, log.length + 1)] := by
  rw [numbered, List.zipIdx_append, Nat.add_comm]
  rfl

theorem map_numbered {α : Type} (f : Held → α) : (numbered log).map (fun p => f p.1) = log.map f := by
  have hfst := List.zipIdx_map_fst 1 log
  rw [← hfst, List.map_map, hfst]
  rfl

theorem mem_numbered {p : Held × Nat} (h : p ∈ numbered log) : p.1 ∈ log := by
  have hmem := List.mem_map_of_mem (f := Prod.fst) h
  rwa [numbered, List.zipIdx_map_fst] at hmem

/-! ## Text -/

theorem textColumn_inj {s t : JsString} (hs : ∀ u ∈ s, PlainUnit u) (ht : ∀ u ∈ t, PlainUnit u) :
    textColumn s = textColumn t ↔ s = t := by
  refine ⟨fun h => ?_, fun h => h ▸ rfl⟩
  exact Utf16.encodeUtf8_injective (Utf16.loneSurrogate_ascii fun u hu => (hs u hu).1)
    (Utf16.loneSurrogate_ascii fun u hu => (ht u hu).1) (SqlValue.bytes.inj h)

/-- Of plain text, the order of the bytes is the order of the units. -/
theorem compareBinary_plain {s t : JsString} (hs : ∀ u ∈ s, PlainUnit u)
    (ht : ∀ u ∈ t, PlainUnit u) :
    compareBinary (textColumn s) (textColumn t) = Json.compareUnits s t := by
  rw [textColumn, textColumn, compareBinary, encodeUtf8_plain hs, encodeUtf8_plain ht,
    Json.compareUnits]
  induction s generalizing t with
  | nil => cases t <;> rfl
  | cons u s ih =>
      cases t with
      | nil => rfl
      | cons v t =>
          obtain ⟨hu, hs⟩ := List.forall_mem_cons.mp hs
          obtain ⟨hv, ht⟩ := List.forall_mem_cons.mp ht
          have hnu : (UInt8.ofNat u.toNat).toNat = u.toNat :=
            UInt8.toNat_ofNat_of_lt' (show u.toNat < 256 by have := hu.1; omega)
          have hnv : (UInt8.ofNat v.toNat).toNat = v.toNat :=
            UInt8.toNat_ofNat_of_lt' (show v.toNat < 256 by have := hv.1; omega)
          have hunit : compare (UInt8.ofNat u.toNat) (UInt8.ofNat v.toNat) = compare u v := by
            show compareOfLessAndEq _ _ = compareOfLessAndEq _ _
            simp only [compareOfLessAndEq, UInt8.lt_iff_toNat_lt, UInt16.lt_iff_toNat_lt,
              ← UInt8.toNat_inj, ← UInt16.toNat_inj, hnu, hnv]
          rw [List.map_cons, List.map_cons, List.compareLex_cons_cons, List.compareLex_cons_cons,
            hunit, ih hs ht]

/-! ## Reading rows -/

theorem noteDamage_event (event : Event) (place : Option JsString) (s : SqliteEventStore) :
    noteDamage (.event event) place s = (.ok (.event event), s) := rfl

/-- The rows of held events are read as those events. -/
theorem select_run {filter : Option Filter} {ps : List (Held × Nat)} {s : SqliteEventStore}
    (hknown : s.known = []) (hps : ∀ p ∈ ps, Accepted P p.1.event p.1.bytes) :
    select P filter (ps.map row) s =
      (.ok ((ps.map fun p => p.1.event).filter (matchesFilter · filter)), s) := by
  induction ps with
  | nil => rfl
  | cons p ps ih =>
      obtain ⟨hp, hps⟩ := List.forall_mem_cons.mp hps
      rw [List.map_cons, select, row, hp.decodeEventRow]
      rw [bind_run (noteDamage_event p.1.event _ s), read_bind, bind_run (ih hps), hknown]
      rw [List.map_cons, List.filter_cons]
      rfl

theorem surveyRows_run {ps : List (Held × Nat)} {s : SqliteEventStore}
    (hps : ∀ p ∈ ps, Accepted P p.1.event p.1.bytes) :
    surveyRows P (ps.map row) s = (.ok [], s) := by
  induction ps with
  | nil => rfl
  | cons p ps ih =>
      obtain ⟨hp, hps⟩ := List.forall_mem_cons.mp hps
      rw [List.map_cons, surveyRows, row, hp.decodeEventRow]
      rw [bind_run (noteDamage_event p.1.event _ s), bind_run (ih hps)]
      rfl

theorem accepted_numbered (hgood : log.Good P) :
    ∀ p ∈ numbered log, Accepted P p.1.event p.1.bytes :=
  fun p hp => hgood.accepted p.1 (mem_numbered hp)

theorem survey_run (h : store.Holds log) (hgood : log.Good P) :
    survey P store = (.ok [], { store with surveyed := true }) := by
  rw [survey, read_bind, h.events]
  exact bind_run (surveyRows_run (accepted_numbered hgood))

/-- A store without damage is found sound. -/
theorem requireSound_run (h : store.Holds log) (hgood : log.Good P) :
    ∃ surveyed, requireSound P store = (.ok (), { store with surveyed }) := by
  have hsound (surveyed : Bool) (hsurvey : surveyOnce P (store.damage.isNone && !store.surveyed) store =
      (.ok (), { store with surveyed })) :
      requireSound P store = (.ok (), { store with surveyed }) := by
    rw [requireSound, read_bind, bind_run hsurvey, read_bind]
    simp only [h.damage]
    rfl
  cases hneeded : store.damage.isNone && !store.surveyed with
  | false =>
      refine ⟨store.surveyed, hsound _ ?_⟩
      rw [hneeded]
      rfl
  | true =>
      refine ⟨true, hsound _ ?_⟩
      rw [hneeded, surveyOnce, if_pos rfl]
      exact bind_run (survey_run h hgood)

/-! ## What is held -/

theorem row_cid_beq {p : Held × Nat} (hp : Accepted P p.1.event p.1.bytes) {cid : JsString}
    (hcid : ∀ u ∈ cid, PlainUnit u) : ((row p).cid == textColumn cid) = (p.1.cid == cid) := by
  rw [Bool.eq_iff_iff, beq_iff_eq, beq_iff_eq]
  exact textColumn_inj hp.plain_cid hcid

/-- The row under a CID is the event's that the log has under it. -/
theorem find_rows (hgood : log.Good P) {cid : JsString} (hcid : ∀ u ∈ cid, PlainUnit u) :
    ∃ found, ((numbered log).map row).find? (·.cid == textColumn cid) = Option.map row found ∧
      found.map Prod.fst = log.find cid := by
  refine ⟨(numbered log).find? fun p => p.1.cid == cid, ?_, ?_⟩
  · rw [List.find?_map]
    refine congrArg _ (List.find?_congr fun p hp => ?_)
    exact row_cid_beq (accepted_numbered hgood p hp) hcid
  · have hfst : log = (numbered log).map Prod.fst := (List.zipIdx_map_fst 1 log).symm
    conv_rhs => rw [hfst, Log.find, List.find?_map]
    rfl

theorem held_run (h : store.Holds log) (hgood : log.Good P) {cid : JsString}
    (hcid : ∀ u ∈ cid, PlainUnit u) : held P cid store = (.ok (log.find cid), store) := by
  obtain ⟨found, hrow, hfound⟩ := find_rows hgood hcid
  rw [held, read_bind, h.events, hrow, ← hfound]
  cases hp : found with
  | none => rfl
  | some p =>
      have haccepted : Accepted P p.1.event p.1.bytes := by
        rw [hp, Option.map_some] at hfound
        exact hgood.accepted p.1 (Log.find_eq_some hfound.symm).1
      simp only [Option.map_some]
      rw [row, haccepted.decodeEventRow]
      exact bind_run (noteDamage_event p.1.event none store)

/-! ## Writes -/

/-- The tables of a log, its control row not yet brought up to it. -/
def tablesWith (last : Option Nat) (log : Log) : EventTables :=
  ⟨(numbered log).map row, (numbered log).map positionRow, last⟩

theorem nextRowid_numbered : nextRowid ((numbered log).map row) = log.length + 1 := by
  have hrowids : ((numbered log).map row).map EventRow.rowid = List.range' 1 log.length := by
    rw [List.map_map, numbered, ← List.zipIdx_map_snd]
    rfl
  have hmax (n : Nat) : (List.range' 1 n).foldl max 0 = n := by
    induction n with
    | zero => rfl
    | succ n ih =>
        rw [List.range'_1_concat, List.foldl_append, ih]
        simp [Nat.add_comm]
  rw [nextRowid, hrowids, hmax]

theorem notMem_numbered {held : Held} (hnew : log.find held.cid = none) {p : Held × Nat}
    (hp : p ∈ numbered log) : p.1.cid ≠ held.cid := fun heq =>
  Log.find_eq_none.mp hnew (heq ▸ List.mem_map_of_mem (mem_numbered hp))

theorem lt_numbered {p : Held × Nat} (hp : p ∈ numbered log) : p.2 < log.length + 1 := by
  have := List.snd_lt_of_mem_zipIdx hp
  omega

/-- An event that is new goes to the end of the tables. -/
theorem insertHeld_tables {last : Option Nat} {held : Held} (hgood : log.Good P)
    (haccepted : Accepted P held.event held.bytes) (hnew : log.find held.cid = none) :
    insertHeld held (log.length + 1) (tablesWith last log) = .ok (tablesWith last (log ++ [held])) := by
  have hplain : ∀ u ∈ held.cid, PlainUnit u := haccepted.plain_cid
  have hevents : ((numbered log).map row).any (EventRow.clash (row (held, log.length + 1))) = false := by
    rw [List.any_map, List.any_eq_false]
    intro p hp
    have hcid : (row (held, log.length + 1)).cid = textColumn held.cid := rfl
    rw [Function.comp_apply, EventRow.clash, hcid, Bool.beq_comm,
      row_cid_beq (accepted_numbered hgood p hp) hplain, beq_iff_eq]
    exact notMem_numbered hnew hp
  have hpositions : ((numbered log).map positionRow).any
      (PositionRow.clash (positionRow (held, log.length + 1))) = false := by
    rw [List.any_map, List.any_eq_false]
    intro p hp
    have hlt := lt_numbered hp
    simp only [Function.comp_apply, PositionRow.clash, positionRow, Bool.or_eq_true, beq_iff_eq, not_or]
    refine ⟨by omega, fun h => notMem_numbered hnew hp ?_⟩
    exact ((textColumn_inj hplain (accepted_numbered hgood p hp).plain_cid).mp h).symm
  have hinsert := haccepted.insertEvent (log.length + 1)
  have hcheck : checkText 2 held.cid = .ok held.cid := checkText_of_plain hplain
  rw [insertHeld, tablesWith]
  simp only [nextRowid_numbered, hinsert, hcheck, thrown, Checked.ok_bind]
  have hrow : rowOf (log.length + 1) held.event held.bytes = row (held, log.length + 1) := rfl
  have hposition : (⟨log.length + 1, textColumn held.cid⟩ : PositionRow) =
      positionRow (held, log.length + 1) := rfl
  rw [hrow, hposition, Sql.insert, Sql.insert, hevents, hpositions]
  rw [tablesWith, numbered_snoc, List.map_append, List.map_append]
  rfl

theorem insertAllHeld_tables {last : Option Nat} {staged : Log}
    (hgood : Log.Good P (log ++ staged)) :
    insertAllHeld staged (log.length + 1) (tablesWith last log) =
      .ok (tablesWith last (log ++ staged)) := by
  induction staged generalizing log with
  | nil =>
      rw [List.append_nil]
      rfl
  | cons held rest ih =>
      have hnew : log.find held.cid = none := hgood.fresh
      have hassoc : log ++ held :: rest = log ++ [held] ++ rest := by simp
      have hbefore : log.Good P := hgood.before
      have haccepted : Accepted P held.event held.bytes :=
        hgood.accepted held (List.mem_append_right _ List.mem_cons_self)
      rw [hassoc] at hgood ⊢
      rw [insertAllHeld, insertHeld_tables hbefore haccepted hnew, Checked.ok_bind, ← ih hgood,
        List.length_append, List.length_singleton]

/-- What a write that landed leaves: the log with what is new at its end. -/
theorem accept_run (h : store.Holds log) {staged : Log} (hgood : Log.Good P (log ++ staged)) :
    ∃ store', accept staged store = (.ok (), store') ∧ store'.Holds (log ++ staged) ∧
      store'.author = store.author ∧ store'.generation = store.generation := by
  cases staged with
  | nil =>
      refine ⟨store, rfl, ?_, rfl, rfl⟩
      rw [List.append_nil]
      exact h
  | cons held rest =>
      have hlast : lastSeq store = (.ok log.length, store) := by
        rw [lastSeq, read_bind, h.lastSeq]
        rfl
      have htables : store.tables = tablesWith (some log.length) log := h.tables
      have hinsert : insertAllHeld (held :: rest) (log.length + 1) store.tables =
          .ok (tablesWith (some log.length) (log ++ held :: rest)) := by
        rw [htables, insertAllHeld_tables hgood]
      refine ⟨{ store with tables := tablesOf (log ++ held :: rest) }, ?_,
        ⟨h.writable, rfl, h.damage, h.known⟩, rfl, rfl⟩
      rw [accept, List.isEmpty_cons, if_neg Bool.false_ne_true, acceptSome, bind_run hlast, read_bind,
        hinsert, lift_bind_ok, tablesOf, List.length_append]
      rfl

theorem stage_run (h : store.Holds log) (hgood : log.Good P) {incoming here : Log}
    {staged : OMap JsString Held} (hstaged : Keyed staged here)
    (hincoming : ∀ held ∈ incoming, Accepted P held.event held.bytes) :
    ∃ staged', stage P incoming staged store =
        (.ok ⟨(Log.stage log incoming here).1, staged'⟩, store) ∧
      Keyed staged' (Log.stage log incoming here).2 := by
  induction incoming generalizing staged here with
  | nil => exact ⟨staged, rfl, hstaged⟩
  | cons held rest ih =>
      obtain ⟨hheld, hrest⟩ := List.forall_mem_cons.mp hincoming
      have hrun := held_run h hgood (show ∀ u ∈ held.cid, PlainUnit u from hheld.plain_cid)
      rw [stage, bind_run hrun, hstaged.get?, ← Log.find_append, Log.stage]
      cases hfind : Log.find (log ++ here) held.cid with
      | some have_ =>
          obtain ⟨staged', hstage, hkeyed⟩ := ih hstaged hrest
          exact ⟨staged', bind_run hstage, hkeyed⟩
      | none =>
          rw [Log.find_append, Option.or_eq_none_iff] at hfind
          obtain ⟨staged', hstage, hkeyed⟩ := ih (hstaged.set hfind.2) hrest
          exact ⟨staged', bind_run hstage, hkeyed⟩

/-- The log that a call leaves. -/
def left {α : Type} (log : Log) : Except StoreError (α × Log) → Log
  | .ok (_, log) => log
  | .error _ => log

/-- A call that answered what it does of a log, and the store it left. -/
structure Answers {α : Type} (store : SqliteEventStore) (log : Log)
    (result : Except StoreError α × SqliteEventStore) (expected : Except StoreError (α × Log)) :
    Prop where
  answer : result.1 = expected.map Prod.fst
  holds : result.2.Holds (left log expected)
  author : result.2.author = store.author
  generation : result.2.generation = store.generation

theorem Answers.refused {α : Type} (h : store.Holds log) (e : StoreError) :
    @Answers α store log (.error e, store) (.error e) := ⟨rfl, h, rfl, rfl⟩

theorem appendHeld_answers (h : store.Holds log) (hgood : log.Good P) {incoming : Log}
    (hincoming : ∀ held ∈ incoming, Accepted P held.event held.bytes) :
    Answers store log (appendHeld P incoming store)
      (.ok ((Log.stage log incoming []).1, log ++ (Log.stage log incoming []).2)) := by
  obtain ⟨surveyed, hsound⟩ := requireSound_run h hgood
  obtain ⟨staged, hstage, hkeyed⟩ := stage_run (h.surveyed surveyed) hgood Keyed.empty hincoming
  have hafter : Log.Good P (log ++ (Log.stage log incoming []).2) := by
    refine Log.good_stage ?_ hincoming
    rwa [List.append_nil]
  obtain ⟨store', haccept, hholds, hauthor, hgeneration⟩ := accept_run (h.surveyed surveyed) hafter
  rw [← hkeyed.values] at haccept
  rw [appendHeld, transaction, Effect.atomically, bind_run hsound, bind_run hstage, bind_run haccept]
  exact ⟨rfl, hholds, hauthor, hgeneration⟩

theorem requireWritable_run (h : store.Holds log) (what : JsString) :
    requireWritable what store = (.ok (), store) := by
  rw [requireWritable, read_bind, h.writable]
  rfl

theorem appendAll_answers (h : store.Holds log) (hgood : log.Good P) (drafts : List JsValue)
    (now : Option Rat) :
    Answers store log (appendAll P drafts now store) (log.appendAll P store.author drafts now) := by
  rw [appendAll, Log.appendAll]
  cases hclean : validateDrafts P drafts with
  | error e => exact .refused h e
  | ok clean =>
      rw [lift_bind_ok, Checked.ok_bind]
      split
      · exact ⟨rfl, h, rfl, rfl⟩
      rw [appendClean, bind_run (requireWritable_run h _)]
      cases hat : sampleAt now with
      | error e => exact .refused h (.js e)
      | ok at_ =>
          simp only [thrown, Checked.ok_bind]
          rw [lift_bind_ok, read_bind]
          cases hincoming : clean.mapM fun draft => heldOf P draft at_ store.author with
          | error e => exact .refused h (.js e)
          | ok incoming =>
              rw [lift_bind_ok, Checked.ok_bind]
              exact appendHeld_answers h hgood (Log.accepted_heldOf hincoming)

theorem classify_run (h : store.Holds log) (hgood : log.Good P) {author : JsString}
    {input : List IngestInput} {c : Classified} {s : Log.Sorted} (hm : s.Matches c)
    (hinput : ∀ held, .held held ∈ input → Accepted P held.event held.bytes) :
    ∃ c', classify P author input c store = (.ok c', store) ∧
      (log.classify author input s).Matches c' := by
  induction input generalizing c s with
  | nil => exact ⟨c, rfl, hm⟩
  | cons input rest ih =>
      have hrest : ∀ held, .held held ∈ rest → Accepted P held.event held.bytes :=
        fun held hmem => hinput held (List.mem_cons_of_mem _ hmem)
      cases input with
      | rejected rejected => exact ih hm.reject hrest
      | held incoming =>
          have hincoming := hinput incoming List.mem_cons_self
          have hrun := held_run h hgood
            (show ∀ u ∈ incoming.cid, PlainUnit u from hincoming.plain_cid)
          have hsame : ((log.find incoming.cid).isSome || c.staged.has incoming.cid) =
              (Log.find (log ++ s.staged) incoming.cid).isSome := by
            rw [OMap.has, hm.staged.get?, Log.find_append, Option.isSome_or]
          rw [classify, bind_run hrun, Log.classify, hsame]
          split
          · exact ih hm.duplicate hrest
          · next hnone =>
              split
              · exact ih (hm.fork incoming.event) hrest
              · refine ih (hm.stage ?_) hrest
                rw [Bool.not_eq_true, Option.isSome_eq_false_iff, Option.isNone_iff_eq_none,
                  Log.find_append, Option.or_eq_none_iff] at hnone
                exact hnone.2

theorem ingestRead_answers (h : store.Holds log) (hgood : log.Good P) {input : List IngestInput}
    (hinput : ∀ held, .held held ∈ input → Accepted P held.event held.bytes) :
    Answers store log (ingestRead P input store) (log.ingestRead store.author input) := by
  obtain ⟨surveyed, hsound⟩ := requireSound_run h hgood
  have hsurveyed := h.surveyed surveyed
  obtain ⟨c, hclassify, hm⟩ :=
    @classify_run P _ log hsurveyed hgood store.author input .start .start .start hinput
  rw [ingestRead, transaction, Effect.atomically, bind_run hsound, read_bind, bind_run hclassify,
    Log.ingestRead, ← hm.forked]
  by_cases hforked : c.forked ≠ []
  · rw [if_pos hforked, if_pos hforked]
    exact ⟨rfl, ⟨h.writable, h.tables, h.damage, h.known⟩, rfl, rfl⟩
  · have hafter : Log.Good P (log ++ (log.classify store.author input .start).staged) := by
      refine Log.good_classify ?_ hinput
      rwa [Log.Sorted.start, List.append_nil]
    obtain ⟨store', haccept, hholds, hauthor, hgeneration⟩ := accept_run hsurveyed hafter
    rw [← hm.staged.values] at haccept
    rw [if_neg hforked, if_neg hforked, bind_run haccept, hm.staged.size, hm.duplicates, hm.rejected]
    exact ⟨rfl, hholds, hauthor, hgeneration⟩

theorem ingest_answers (h : store.Holds log) (hgood : log.Good P) (source : Source) :
    Answers store log (ingest P source store) (log.ingest P store.author source) := by
  rw [ingest, bind_run (requireWritable_run h _), Log.ingest]
  cases hread : readSource P source with
  | error e => exact .refused h e
  | ok input => exact ingestRead_answers h hgood (Log.accepted_readSource hread)

/-! ## Reads -/

/-- SQL leaves out no row of an event that matches. -/
theorem conditions_of_matches {filter : Option Filter} {p : Held × Nat}
    (h : matchesFilter p.1.event filter = true) : conditions filter (row p) = true := by
  have hagrees {wanted : Option JsString} {actual : JsString} (h : agrees wanted actual = true) :
      wanted.all (fun s => textColumn actual == textColumn s) = true := by
    rw [agrees, Option.all_eq_true] at h
    rw [Option.all_eq_true]
    intro s hs
    rw [← beq_iff_eq.mp (h s hs)]
    exact beq_self_eq_true _
  rw [matchesFilter, Option.all_eq_true] at h
  rw [conditions, Option.all_eq_true]
  intro f hf
  have hf := h f hf
  simp only [Bool.and_eq_true] at hf ⊢
  exact ⟨⟨hagrees hf.1.1.1, hagrees hf.1.1.2⟩, hagrees hf.1.2⟩

/-- The order of the rows is the order of their events. -/
theorem byAtAndCid_row {p q : Held × Nat} (hp : Accepted P p.1.event p.1.bytes)
    (hq : Accepted P q.1.event q.1.bytes) :
    byAtAndCid (row p) (row q) = compareEvents p.1.event q.1.event := by
  rw [byAtAndCid, compareEvents]
  exact congrArg₂ Ordering.then (compareBinary_plain hp.plain_at hq.plain_at)
    (compareBinary_plain hp.plain_cid hq.plain_cid)

theorem events_numbered : (numbered log).map (fun p => p.1.event) = log.events := map_numbered Held.event

/-- The narrowed rows in their order hold the narrowed events in canonical order. -/
theorem sorted_rows (hgood : log.Good P) (filter : Option Filter) :
    ∃ ps : List (Held × Nat), Cmp.sortBy byAtAndCid (((numbered log).map row).filter (conditions filter)) = ps.map row ∧
      (∀ p ∈ ps, Accepted P p.1.event p.1.bytes) ∧
      ps.map (fun p => p.1.event) = Cmp.sortBy compareEvents
        (log.events.filter fun event => conditions filter (rowOf 0 event [])) := by
  have haccepted := accepted_numbered hgood
  have hkept : ∀ p ∈ (numbered log).filter fun p => conditions filter (row p),
      Accepted P p.1.event p.1.bytes := fun p hp => haccepted p (List.mem_of_mem_filter hp)
  refine ⟨Cmp.sortBy (Cmp.comap row byAtAndCid)
    ((numbered log).filter fun p => conditions filter (row p)), ?_,
    fun p hp => hkept p (Cmp.mem_sortBy.mp hp), ?_⟩
  · rw [List.filter_map, Cmp.sortBy_map]
    rfl
  · have hsort := List.map_insertionSort (fun p q => (byAtAndCid (row p) (row q)).isLE = true)
      (fun a b => (compareEvents a b).isLE = true) (fun p : Held × Nat => p.1.event)
      ((numbered log).filter fun p => conditions filter (row p))
      (fun p hp q hq => by rw [byAtAndCid_row (hkept p hp) (hkept q hq)])
    rw [← events_numbered, List.filter_map]
    exact hsort

theorem scan_run (h : store.Holds log) (hgood : log.Good P) (filter : Option Filter) :
    scan P filter store = (log.scan filter, store) := by
  rw [scan, Log.scan]
  cases hcheck : checkFilter filter with
  | error e => rfl
  | ok u =>
      obtain ⟨ps, hrows, haccepted, hevents⟩ := sorted_rows hgood filter
      have hscan := Log.scan_filter log filter (fun event => conditions filter (rowOf 0 event []))
        fun event hmatches => @conditions_of_matches filter (⟨event, []⟩, 0) hmatches
      simp only [thrown, Checked.ok_bind]
      rw [lift_bind_ok, read_bind, h.events, hrows, select_run h.known haccepted, hevents, hscan]

/-! ## Positions -/

theorem filter_zipIdx {α : Type} (l : List α) (lower k : Nat) :
    (l.zipIdx k).filter (fun p => lower + k ≤ p.2) = (l.zipIdx k).drop lower := by
  induction l generalizing lower k with
  | nil => simp
  | cons a l ih =>
      rw [List.zipIdx_cons]
      cases lower with
      | zero =>
          rw [List.drop_zero, List.filter_eq_self]
          intro p hp
          rcases List.mem_cons.mp hp with rfl | hp
          · simp
          · have := List.le_snd_of_mem_zipIdx hp
            simp only [decide_eq_true_eq]
            omega
      | succ lower =>
          have htail : lower + 1 + k = lower + (k + 1) := by omega
          rw [List.filter_cons, if_neg (by simp), List.drop_succ_cons, ← ih, htail]

/-- One member of a list has its key. -/
theorem filter_key {α β : Type} [BEq β] [LawfulBEq β] {f : α → β} {l : List α} (h : (l.map f).Nodup) {a : α}
    (ha : a ∈ l) : l.filter (fun b => f b == f a) = [a] := by
  induction l with
  | nil => cases ha
  | cons b l ih =>
      rw [List.map_cons, List.nodup_cons] at h
      rw [List.filter_cons]
      rcases List.mem_cons.mp ha with rfl | ha
      · rw [if_pos (beq_self_eq_true _), List.filter_eq_nil_iff.mpr]
        intro c hc heq
        exact h.1 (beq_iff_eq.mp heq ▸ List.mem_map_of_mem hc)
      · rw [if_neg, ih h.2 ha]
        intro heq
        exact h.1 (beq_iff_eq.mp heq ▸ List.mem_map_of_mem ha)

theorem flatMap_filter {α β : Type} {f : α → List β} {keep : α → Bool} {g : α → β} {l : List α}
    (h : ∀ a ∈ l, f a = if keep a = true then [g a] else []) :
    l.flatMap f = (l.filter keep).map g := by
  induction l with
  | nil => rfl
  | cons a l ih =>
      obtain ⟨ha, hl⟩ := List.forall_mem_cons.mp h
      rw [List.flatMap_cons, ha, ih hl, List.filter_cons]
      split <;> rfl

theorem pairwise_numbered : (numbered log).Pairwise fun p q => p.2 < q.2 := by
  have hsnd : ((numbered log).map Prod.snd).Pairwise (· < ·) := by
    rw [numbered, List.zipIdx_map_snd]
    exact List.pairwise_lt_range'
  exact List.pairwise_map.mp hsnd

/-- A position leads to the row of its event. -/
theorem rows_of_position (hgood : log.Good P) {p : Held × Nat} (hp : p ∈ numbered log) :
    ((numbered log).map row).filter (fun e => e.cid == textColumn p.1.cid) = [row p] := by
  have hcids : ((numbered log).map fun p => p.1.cid).Nodup := by
    rw [map_numbered Held.cid]
    exact hgood.once
  have hplain : ∀ u ∈ p.1.cid, PlainUnit u := (accepted_numbered hgood p hp).plain_cid
  have hkey : (numbered log).filter (fun q => (row q).cid == textColumn p.1.cid) = [p] := by
    rw [← filter_key hcids hp]
    exact List.filter_congr fun q hq => row_cid_beq (accepted_numbered hgood q hq) hplain
  rw [List.filter_map]
  exact congrArg (List.map row) hkey

/-- The rows accepted since are those of what was added to the log since. -/
theorem acceptedRows_tables (hgood : log.Good P) (filter : Option Filter) (lower : Nat) :
    acceptedRows (tablesOf log) lower log.length filter =
      (((numbered log).drop lower).filter fun p => conditions filter (row p)).map row := by
  have hpositions : (((numbered log).map positionRow).filter fun p =>
      decide (lower < p.acceptedSeq) && decide (p.acceptedSeq ≤ log.length)) =
      ((numbered log).drop lower).map positionRow := by
    rw [List.filter_map, numbered, ← filter_zipIdx]
    refine congrArg _ (List.filter_congr fun p hp => ?_)
    have hlt := lt_numbered hp
    show (decide (lower < p.2) && decide (p.2 ≤ log.length)) = decide (lower + 1 ≤ p.2)
    rw [decide_eq_true (show p.2 ≤ log.length by omega), Bool.and_true]
    rfl
  -- a position is joined with the one row of its event, where SQL does not leave it out
  have hjoin : ∀ p ∈ (numbered log).drop lower,
      ((((numbered log).map row).filter fun e => e.cid == (positionRow p).cid && conditions filter e).map
        fun e => (positionRow p, e)) =
      if conditions filter (row p) = true then [(positionRow p, row p)] else [] := by
    intro p hp
    have hrow := rows_of_position hgood (List.mem_of_mem_drop hp)
    have hnarrowed : ((numbered log).map row).filter
        (fun e => e.cid == textColumn p.1.cid && conditions filter e) =
        [row p].filter (conditions filter) := by
      rw [← hrow, List.filter_filter]
      exact List.filter_congr fun e _ => Bool.and_comm _ _
    rw [positionRow, hnarrowed, List.filter_cons]
    split <;> rfl
  have hsorted : ((((numbered log).drop lower).filter fun p => conditions filter (row p)).map
      fun p => (positionRow p, row p)).Pairwise fun a b =>
        (compare a.1.acceptedSeq b.1.acceptedSeq).isLE := by
    rw [List.pairwise_map]
    refine (pairwise_numbered.sublist (List.filter_sublist.trans (List.drop_sublist _ _))).imp ?_
    intro p q hlt
    exact Nat.isLE_compare.mpr (Nat.le_of_lt hlt)
  have hjoined := flatMap_filter hjoin
  simp only [acceptedRows, tablesOf, hpositions, List.flatMap_map]
  rw [hjoined, Cmp.sortBy_of_sorted hsorted, List.map_map]
  rfl

theorem lastSeq_run (h : store.Holds log) : SqliteEventStore.lastSeq store = (.ok log.length, store) := by
  rw [SqliteEventStore.lastSeq, read_bind, h.lastSeq]
  rfl

/-- A page is what was accepted since. -/
theorem changes_run (h : store.Holds log) (hgood : log.Good P) {filter : Option Filter}
    {since : Option ChangeToken} {lower : Nat}
    (hlower : from_ store.generation log.length since = .ok lower) :
    changes P filter since store = ((do
      thrown (checkFilter filter)
      .ok (token store.generation log.length, log.after filter lower)), store) := by
  rw [changes]
  cases hcheck : checkFilter filter with
  | error e => rfl
  | ok u =>
      have hkept : ∀ p ∈ ((numbered log).drop lower).filter (fun p => conditions filter (row p)),
          Accepted P p.1.event p.1.bytes := fun p hp =>
        accepted_numbered hgood p (List.mem_of_mem_drop (List.mem_of_mem_filter hp))
      simp only [thrown, Checked.ok_bind]
      rw [lift_bind_ok, bind_run (lastSeq_run h), read_bind, hlower, lift_bind_ok, read_bind, h.tables,
        acceptedRows_tables hgood, bind_run (select_run h.known hkept)]
      have hevents : ((((numbered log).drop lower).filter fun p => conditions filter (row p)).map
          fun p => p.1.event).filter (matchesFilter · filter) = log.after filter lower := by
        rw [Log.after, ← events_numbered, ← List.map_drop, List.filter_map, List.filter_map,
          List.filter_filter]
        refine congrArg _ (List.filter_congr fun p _ => ?_)
        cases hmatches : matchesFilter p.1.event filter with
        | false => simp [hmatches]
        | true => simp [hmatches, conditions_of_matches hmatches]
      rw [hevents]
      rfl

theorem changes_refused (h : store.Holds log) {filter : Option Filter}
    {since : Option ChangeToken} {e : StoreError} (hcheck : checkFilter filter = .ok ())
    (hsince : from_ store.generation log.length since = .error e) :
    changes P filter since store = (.error e, store) := by
  rw [changes, hcheck, thrown, lift_bind_ok, bind_run (lastSeq_run h), read_bind, hsince]
  rfl

theorem tally_eq (h : store.Holds log) : store.tally = log.tally := by
  rw [tally, Log.tally, h.events, List.length_map, List.map_map, numbered, List.length_zipIdx]
  exact congrArg (EventTally.mk log.length) (congrArg List.sum (map_numbered fun held => held.bytes.length))

/-- The position of a token that the store gave out. -/
theorem from_token {generation : JsString} {before upper : Nat} (h : before ≤ upper) :
    from_ generation upper (some (token generation before)) = .ok before := by
  rw [from_, token, place, if_neg (not_not_intro rfl)]
  exact position_natCast h

end SqliteEventStore

end Estoc.EventStore
