import Estoc.EventStore.Log
import Estoc.EventStore.MemoryEvents

/-!
# The store in memory is a log

The map by CID and the list in order of acceptance hold the same events, so that each
call answers what the log answers and leaves what the log leaves.
-/

set_option linter.unusedSectionVars false

namespace Estoc.EventStore

open Utf16 (JsString)

namespace MemoryEventStore

/-- The store holds the events of a log. -/
structure Holds (store : MemoryEventStore) (log : Log) : Prop where
  held : store.held.entries = log.map fun held => (held.cid, held.event)
  accepted : store.accepted = log.events
  bytes : store.bytes = (log.map fun held => held.bytes.length).sum

variable {P : Packages} {store : MemoryEventStore} {log : Log}

theorem holds_new (author generation : JsString) : (new author generation).Holds [] := ⟨rfl, rfl, rfl⟩

theorem Holds.get? (h : store.Holds log) (cid : JsString) :
    store.held.get? cid = (log.find cid).map Held.event := Keyed.get?_map h.held cid

theorem Holds.has (h : store.Holds log) (cid : JsString) :
    store.held.has cid = (log.find cid).isSome := by
  rw [OMap.has, h.get?, Option.isSome_map]

theorem Holds.accept (h : store.Holds log) {held : Held} (hnew : log.find held.cid = none) :
    (store.accept held).Holds (log ++ [held]) where
  held := by
    have hkeys : held.cid ∉ store.held.keys := by
      rw [← OMap.get?_eq_none, h.get?, hnew]
      rfl
    rw [MemoryEventStore.accept, OMap.entries_set hkeys, h.held, List.map_append]
    rfl
  accepted := by
    rw [MemoryEventStore.accept, h.accepted, Log.events, Log.events, List.map_append]
    rfl
  bytes := by
    rw [MemoryEventStore.accept, h.bytes, List.map_append, List.sum_append]
    simp

theorem author_acceptAll (staged : Log) : (staged.foldl accept store).author = store.author ∧
    (staged.foldl accept store).generation = store.generation := by
  induction staged generalizing store with
  | nil => exact ⟨rfl, rfl⟩
  | cons held rest ih => exact ih

theorem Holds.acceptAll (h : store.Holds log) {staged : Log} (hgood : Log.Good P (log ++ staged)) :
    (staged.foldl MemoryEventStore.accept store).Holds (log ++ staged) := by
  induction staged generalizing store log with
  | nil =>
      rw [List.append_nil]
      exact h
  | cons held rest ih =>
      have hnew : log.find held.cid = none := hgood.fresh
      have hassoc : log ++ held :: rest = log ++ [held] ++ rest := by simp
      rw [hassoc] at hgood ⊢
      exact ih (h.accept hnew) hgood

/-! ## Writes -/

theorem stage_eq (h : store.Holds log) {at_ : JsString} {drafts : List Draft}
    {staged : OMap JsString Held} {here : Log} (hstaged : Keyed staged here) :
    match drafts.mapM fun draft => heldOf P draft at_ store.author with
    | .error e => stage P store at_ drafts staged = .error (.js e)
    | .ok incoming => ∃ staged', stage P store at_ drafts staged =
        .ok ⟨(Log.stage log incoming here).1, staged'⟩ ∧ Keyed staged' (Log.stage log incoming here).2 := by
  induction drafts generalizing staged here with
  | nil => exact ⟨staged, rfl, hstaged⟩
  | cons draft drafts ih =>
      rw [List.mapM_cons]
      cases hheld : heldOf P draft at_ store.author with
      | error e =>
          simp only [stage, hheld, thrown]
          rfl
      | ok incoming =>
          simp only [stage, hheld, thrown, Checked.ok_bind, h.get?, hstaged.get?]
          -- the map says what the log says: held, staged, or new
          have hboth : ((log.find incoming.cid).map Held.event).or ((here.find incoming.cid).map Held.event) =
              (Log.find (log ++ here) incoming.cid).map Held.event := by
            rw [Log.find_append]
            cases log.find incoming.cid <;> rfl
          rw [hboth]
          cases hfind : Log.find (log ++ here) incoming.cid with
          | some have_ =>
              have hih := ih hstaged
              cases hrest : drafts.mapM fun draft => heldOf P draft at_ store.author with
              | error e =>
                  rw [hrest] at hih
                  simp only [Option.map_some, hih]
                  rfl
              | ok rest =>
                  rw [hrest] at hih
                  obtain ⟨staged', hstage, hkeyed⟩ := hih
                  simp only [Option.map_some, hstage, Checked.ok_bind, Checked.pure_eq_ok, Log.stage,
                    hfind]
                  exact ⟨staged', rfl, hkeyed⟩
          | none =>
              have hnew : here.find incoming.cid = none := by
                rw [Log.find_append, Option.or_eq_none_iff] at hfind
                exact hfind.2
              have hih := ih (hstaged.set hnew)
              cases hrest : drafts.mapM fun draft => heldOf P draft at_ store.author with
              | error e =>
                  rw [hrest] at hih
                  simp only [Option.map_none, hih]
                  rfl
              | ok rest =>
                  rw [hrest] at hih
                  obtain ⟨staged', hstage, hkeyed⟩ := hih
                  simp only [Option.map_none, hstage, Checked.ok_bind, Checked.pure_eq_ok, Log.stage,
                    hfind]
                  exact ⟨staged', rfl, hkeyed⟩

/-- A store that holds a log, and what it answered. -/
def Answers {α : Type} (store : MemoryEventStore) (result : Except StoreError (α × MemoryEventStore))
    (expected : Except StoreError (α × Log)) : Prop :=
  match expected with
  | .error e => result = .error e
  | .ok (a, log) => ∃ store', result = .ok (a, store') ∧ store'.Holds log ∧
      store'.author = store.author ∧ store'.generation = store.generation

theorem appendAll_answers (h : store.Holds log) (hgood : Log.Good P log) (drafts : List JsValue)
    (now : Option Rat) :
    store.Answers (store.appendAll P drafts now) (log.appendAll P store.author drafts now) := by
  rw [appendAll, Log.appendAll]
  cases hclean : validateDrafts P drafts with
  | error e => rfl
  | ok clean =>
      rw [Checked.ok_bind, Checked.ok_bind]
      split
      · exact ⟨store, rfl, h, rfl, rfl⟩
      cases hat : sampleAt now with
      | error e => rfl
      | ok at_ =>
          simp only [thrown, Checked.ok_bind]
          have hstage := @stage_eq P store log h at_ clean OMap.empty [] Keyed.empty
          cases hincoming : clean.mapM fun draft => heldOf P draft at_ store.author with
          | error e =>
              rw [hincoming] at hstage
              rw [hstage]
              rfl
          | ok incoming =>
              rw [hincoming] at hstage
              obtain ⟨staged, hstaged, hkeyed⟩ := hstage
              rw [hstaged, Checked.ok_bind, Checked.ok_bind]
              refine ⟨_, rfl, ?_, ?_⟩
              · rw [MemoryEventStore.acceptAll, hkeyed.values]
                refine h.acceptAll (P := P) (Log.good_stage ?_ (Log.accepted_heldOf hincoming))
                rwa [List.append_nil]
              · exact author_acceptAll _

theorem classify_matches (h : store.Holds log) {input : List IngestInput} {c : Classified}
    {s : Log.Sorted} (hm : s.Matches c) :
    (log.classify store.author input s).Matches (store.classify input c) := by
  induction input generalizing c s with
  | nil => exact hm
  | cons input rest ih =>
      cases input with
      | rejected rejected => exact ih hm.reject
      | held incoming =>
          have hsame : (store.held.has incoming.cid || c.staged.has incoming.cid) =
              (Log.find (log ++ s.staged) incoming.cid).isSome := by
            rw [h.has, OMap.has, hm.staged.get?, Log.find_append, Option.isSome_or]
          rw [classify, Log.classify, hsame]
          split
          · exact ih hm.duplicate
          · next hnone =>
              split
              · exact ih (hm.fork incoming.event)
              · refine ih (hm.stage ?_)
                rw [Bool.not_eq_true, Option.isSome_eq_false_iff, Option.isNone_iff_eq_none,
                  Log.find_append, Option.or_eq_none_iff] at hnone
                exact hnone.2

theorem ingest_answers (h : store.Holds log) (hgood : Log.Good P log) (source : Source) :
    store.Answers (store.ingest P source) (log.ingest P store.author source) := by
  rw [ingest, Log.ingest]
  cases hread : readSource P source with
  | error e => rfl
  | ok input =>
      simp only [Checked.ok_bind]
      have hm := @classify_matches store log h input .start .start .start
      rw [Log.ingestRead, hm.forked]
      split
      · rfl
      · rw [MemoryEventStore.acceptAll, hm.staged.size, hm.duplicates, hm.rejected]
        refine ⟨_, rfl, ?_, author_acceptAll _⟩
        · rw [hm.staged.values]
          refine h.acceptAll (P := P) (Log.good_classify ?_ (Log.accepted_readSource hread))
          rwa [Log.Sorted.start, List.append_nil]

/-! ## Reads -/

theorem scan_eq (h : store.Holds log) (filter : Option Filter) : store.scan filter = log.scan filter := by
  have hvalues : store.held.values = log.events := by
    rw [OMap.values, h.held, List.map_map]
    rfl
  rw [scan, Log.scan, hvalues]

theorem tally_eq (h : store.Holds log) : store.tally = log.tally := by
  rw [tally, Log.tally, OMap.size, h.held, List.length_map, h.bytes]

theorem length_accepted (h : store.Holds log) : store.accepted.length = log.length := by
  rw [h.accepted, Log.events, List.length_map]

/-- The token given out when the log was a part of what it is now. -/
theorem place_token {earlier : MemoryEventStore} {before more : Log} (hbefore : earlier.Holds before)
    (h : store.Holds (before ++ more)) (hgeneration : earlier.generation = store.generation) :
    store.place (earlier.token before.length) = .ok before.length := by
  have hlength := length_accepted h
  rw [List.length_append] at hlength
  have hposition := @position_natCast before.length store.accepted.length (by omega)
  have hlast : earlier.last before.length = store.last before.length := by
    rw [last, last, h.accepted, hbefore.accepted]
    split
    · rfl
    · next hne =>
        rw [Log.events, Log.events, List.map_append, List.getElem?_append_left]
        rw [List.length_map]
        omega
  simp only [token, place, hgeneration, hposition, Checked.ok_bind, hlast, ne_eq,
    not_true_eq_false, if_false]

/-- A page is what was accepted since. -/
theorem changes_eq (h : store.Holds log) {filter : Option Filter} {since : Option ChangeToken}
    {from_ : Nat} (hfrom : since = none ∧ from_ = 0 ∨
      ∃ token, since = some token ∧ store.place token = .ok from_) :
    store.changes filter since = (do
      thrown (checkFilter filter)
      .ok (store.token log.length, log.after filter from_)) := by
  have hlength := length_accepted h
  have hall : (store.accepted.take log.length).drop from_ = log.events.drop from_ := by
    rw [← hlength, List.take_length, h.accepted]
  rw [changes]
  rcases hfrom with ⟨rfl, rfl⟩ | ⟨token, rfl, hplace⟩
  · simp only [hlength, hall, Checked.ok_bind, Log.after]
  · simp only [hplace, hlength, hall, Checked.ok_bind, Log.after]

end MemoryEventStore

end Estoc.EventStore
