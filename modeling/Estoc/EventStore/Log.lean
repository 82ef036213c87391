import Estoc.EventStore.Agreement
import Estoc.EventStore.Store

/-!
# The log

What an event store is for, whatever keeps it: the accepted events in the order they were
accepted, each CID once. The answers of a store are functions of its log, and a write
adds to the end of it or fails. Both stores are shown to be this.
-/

set_option linter.unusedSectionVars false

namespace Estoc.EventStore

open Utf16 (JsString)

/-- The accepted events, in the order they were. -/
abbrev Log := List Held

namespace Log

variable (P : Packages)

def find (log : Log) (cid : JsString) : Option Held := log.find? fun held => held.cid == cid

/-- Some events as they are held, and what of them is new. -/
def stage (log : Log) : List Held → Log → List Event × Log
  | [], staged => ([], staged)
  | incoming :: rest, staged =>
    match find (log ++ staged) incoming.cid with
    | some have_ =>
      let rest := stage log rest staged
      (have_.event :: rest.1, rest.2)
    | none =>
      let rest := stage log rest (staged ++ [incoming])
      (incoming.event :: rest.1, rest.2)

def appendAll (author : JsString) (log : Log) (drafts : List JsValue) (now : Option Rat) :
    Except StoreError (List Event × Log) := do
  let clean ← validateDrafts P drafts
  if clean.isEmpty then .ok ([], log)
  else do
    let at_ ← thrown (sampleAt now)
    let incoming ← thrown (clean.mapM fun draft => heldOf P draft at_ author)
    let staged := stage log incoming []
    .ok (staged.1, log ++ staged.2)

/-- How far the inputs of an ingest have been told apart. -/
structure Sorted where
  duplicates : Nat
  rejected : List Rejected
  staged : Log
  forked : List Event

def Sorted.start : Sorted := ⟨0, [], [], []⟩

def classify (author : JsString) (log : Log) : List IngestInput → Sorted → Sorted
  | [], c => c
  | .rejected rejected :: rest, c =>
    classify author log rest { c with rejected := c.rejected ++ [rejected] }
  | .held incoming :: rest, c =>
    if (find (log ++ c.staged) incoming.cid).isSome then
      classify author log rest { c with duplicates := c.duplicates + 1 }
    else if incoming.event.author = author then
      classify author log rest { c with forked := c.forked ++ [incoming.event] }
    else classify author log rest { c with staged := c.staged ++ [incoming] }

def ingestRead (author : JsString) (log : Log) (input : List IngestInput) :
    Except StoreError (Ingested × Log) :=
  let c := classify author log input .start
  if c.forked ≠ [] then .error (.forkedAuthor author c.forked)
  else .ok (⟨c.staged.length, c.duplicates, c.rejected⟩, log ++ c.staged)

def ingest (author : JsString) (log : Log) (source : Source) :
    Except StoreError (Ingested × Log) := do
  let input ← readSource P source
  ingestRead author log input

def events (log : Log) : List Event := log.map Held.event

def scan (log : Log) (filter : Option Filter) : Except StoreError (List Event) := do
  thrown (checkFilter filter)
  .ok ((Cmp.sortBy compareEvents log.events).filter (matchesFilter · filter))

/-- The events from a position on. -/
def after (log : Log) (filter : Option Filter) (position : Nat) : List Event :=
  (log.events.drop position).filter (matchesFilter · filter)

def tally (log : Log) : EventTally := ⟨log.length, (log.map fun held => held.bytes.length).sum⟩

/-! ## What is held is well formed -/

variable {P} {log : Log}

/-- Every event is in the form it was accepted in, each CID once. -/
structure Good (P : Packages) (log : Log) : Prop where
  accepted : ∀ held ∈ log, Accepted P held.event held.bytes
  once : (log.map Held.cid).Nodup

theorem good_nil : Good P [] := ⟨fun _ h => (by cases h), List.nodup_nil⟩

theorem find_eq_none {cid : JsString} : find log cid = none ↔ cid ∉ log.map Held.cid := by
  simp only [find, List.find?_eq_none, beq_iff_eq, List.mem_map, not_exists, not_and]

theorem find_eq_some {cid : JsString} {held : Held} (h : find log cid = some held) :
    held ∈ log ∧ held.cid = cid := by
  have hcid := @List.find?_some _ (fun held : Held => held.cid == cid) _ _ h
  exact ⟨List.mem_of_find?_eq_some h, beq_iff_eq.mp hcid⟩

theorem find_append {log' : Log} {cid : JsString} :
    find (log ++ log') cid = (find log cid).or (find log' cid) := List.find?_append

theorem Good.before {more : Log} (h : Good P (log ++ more)) : Good P log where
  accepted := (List.forall_mem_append.mp h.accepted).1
  once := by
    have honce := h.once
    rw [List.map_append] at honce
    exact honce.of_append_left

/-- What comes next in a log is not in what came before. -/
theorem Good.fresh {held : Held} {more : Log} (h : Good P (log ++ held :: more)) :
    find log held.cid = none := by
  have honce := h.once
  rw [List.map_append, List.map_cons] at honce
  refine find_eq_none.mpr fun hmem => ?_
  exact (List.nodup_append.mp honce).2.2 held.cid hmem held.cid List.mem_cons_self rfl

/-- What is not held can be added. -/
theorem Good.snoc (h : Good P log) {held : Held} (haccepted : Accepted P held.event held.bytes)
    (hnew : find log held.cid = none) : Good P (log ++ [held]) where
  accepted := List.forall_mem_append.mpr ⟨h.accepted, List.forall_mem_singleton.mpr haccepted⟩
  once := by
    rw [List.map_append, List.map_singleton, List.nodup_append_comm, List.singleton_append,
      List.nodup_cons]
    exact ⟨find_eq_none.mp hnew, h.once⟩

theorem good_stage {incoming staged : Log} (h : Good P (log ++ staged))
    (hincoming : ∀ held ∈ incoming, Accepted P held.event held.bytes) :
    Good P (log ++ (stage log incoming staged).2) := by
  induction incoming generalizing staged with
  | nil => exact h
  | cons held rest ih =>
      obtain ⟨hheld, hrest⟩ := List.forall_mem_cons.mp hincoming
      rw [stage]
      split
      · exact ih h hrest
      · next hnone =>
          refine ih ?_ hrest
          rw [← List.append_assoc]
          exact h.snoc hheld hnone

theorem good_classify {author : JsString} {input : List IngestInput} {c : Sorted}
    (h : Good P (log ++ c.staged))
    (hinput : ∀ held, .held held ∈ input → Accepted P held.event held.bytes) :
    Good P (log ++ (classify author log input c).staged) := by
  induction input generalizing c with
  | nil => exact h
  | cons input rest ih =>
      have hrest : ∀ held, .held held ∈ rest → Accepted P held.event held.bytes :=
        fun held hmem => hinput held (List.mem_cons_of_mem _ hmem)
      cases input with
      | rejected rejected => exact @ih { c with rejected := c.rejected ++ [rejected] } h hrest
      | held incoming =>
          rw [classify]
          split
          · exact @ih { c with duplicates := c.duplicates + 1 } h hrest
          · next hnone =>
              split
              · exact @ih { c with forked := c.forked ++ [incoming.event] } h hrest
              · refine @ih { c with staged := c.staged ++ [incoming] } ?_ hrest
                rw [← List.append_assoc]
                exact h.snoc (hinput incoming List.mem_cons_self) (by simpa using hnone)

/-- A store that leaves out only what does not match scans what the log scans. -/
theorem scan_filter (log : Log) (filter : Option Filter) (keep : Event → Bool)
    (hkeep : ∀ event, matchesFilter event filter = true → keep event = true) :
    (Cmp.sortBy compareEvents (log.events.filter keep)).filter (matchesFilter · filter) =
      (Cmp.sortBy compareEvents log.events).filter (matchesFilter · filter) := by
  rw [Cmp.filter_sortBy, Cmp.filter_sortBy, List.filter_filter]
  refine congrArg _ (List.filter_congr fun event _ => ?_)
  cases hmatches : matchesFilter event filter with
  | false => rfl
  | true => rw [hkeep event hmatches]; rfl

/-- What a store takes in is in the form it accepts. -/
theorem accepted_heldOf {drafts : List Draft} {at_ author : JsString} {incoming : Log}
    (h : drafts.mapM (fun draft => heldOf P draft at_ author) = .ok incoming) :
    ∀ held ∈ incoming, Accepted P held.event held.bytes := by
  induction drafts generalizing incoming with
  | nil =>
      cases h
      exact fun _ h => by cases h
  | cons draft drafts ih =>
      rw [List.mapM_cons, Checked.bind_eq_ok] at h
      obtain ⟨held, hheld, h⟩ := h
      rw [Checked.bind_eq_ok] at h
      obtain ⟨rest, hrest, h⟩ := h
      cases h
      rw [heldOf, Checked.bind_eq_ok] at hheld
      obtain ⟨⟨event, bytes⟩, hcanonical, hheld⟩ := hheld
      cases hheld
      exact List.forall_mem_cons.mpr ⟨canonicalEnvelope_accepted hcanonical, ih hrest⟩

theorem accepted_readSource {source : Source} {input : List IngestInput}
    (h : readSource P source = .ok input) :
    ∀ held, .held held ∈ input → Accepted P held.event held.bytes := by
  unfold readSource at h
  split at h
  · cases h
  · obtain rfl := Except.ok.inj h
    intro held hmem
    obtain ⟨value, _, hvalue⟩ := List.mem_map.mp hmem
    unfold readValue at hvalue
    split at hvalue
    · next event bytes hcanonical =>
        cases hvalue
        exact canonicalEvent_accepted hcanonical
    · cases hvalue

end Log

/-- An error of the language is one of the store. -/
theorem thrown_eq_ok {α : Type} {x : Except JsError α} {a : α} : thrown x = .ok a ↔ x = .ok a := by
  cases x <;> simp [thrown]

/-! ## Maps of what is held -/

/-- A map that holds the events of a log under their CIDs, in their order. -/
def Keyed (staged : OMap JsString Held) (log : Log) : Prop :=
  staged.entries = log.map fun held => (held.cid, held)

namespace Keyed

variable {staged : OMap JsString Held} {log : Log}

theorem empty : Keyed OMap.empty [] := rfl

theorem get?_map {α : Type} {m : OMap JsString α} {f : Held → α}
    (h : m.entries = log.map fun held => (held.cid, f held)) (cid : JsString) :
    m.get? cid = (Log.find log cid).map f := by
  cases hfind : Log.find log cid with
  | none =>
      rw [Option.map_none, OMap.get?_eq_none, OMap.keys, h, List.map_map]
      exact Log.find_eq_none.mp hfind
  | some held =>
      rw [Option.map_some, ← OMap.mem_entries, h, List.mem_map]
      obtain ⟨hmem, hcid⟩ := Log.find_eq_some hfind
      exact ⟨held, hmem, congrArg (·, f held) hcid⟩

theorem get? (h : Keyed staged log) (cid : JsString) : staged.get? cid = Log.find log cid :=
  (@get?_map log _ staged id h cid).trans (congrFun Option.map_id _)

theorem values (h : Keyed staged log) : staged.values = log := by
  rw [OMap.values, h, List.map_map]
  exact List.map_id log

theorem size (h : Keyed staged log) : staged.size = log.length := by
  rw [OMap.size, h, List.length_map]

theorem set (h : Keyed staged log) {held : Held} (hnew : Log.find log held.cid = none) :
    Keyed (staged.set held.cid held) (log ++ [held]) := by
  have hkeys : held.cid ∉ staged.keys := by
    rw [← OMap.get?_eq_none, h.get?, hnew]
  rw [Keyed, OMap.entries_set hkeys, h, List.map_append]
  rfl

end Keyed

/-- The classification of a store is the log's, its map of new events keyed. -/
structure Log.Sorted.Matches (s : Log.Sorted) (c : Classified) : Prop where
  duplicates : c.duplicates = s.duplicates
  rejected : c.rejected = s.rejected
  staged : Keyed c.staged s.staged
  forked : c.forked = s.forked

namespace Log.Sorted.Matches

variable {s : Log.Sorted} {c : Classified}

theorem start : Log.Sorted.start.Matches Classified.start := ⟨rfl, rfl, Keyed.empty, rfl⟩

theorem reject (h : s.Matches c) {rejected : Rejected} :
    ({ s with rejected := s.rejected ++ [rejected] } : Log.Sorted).Matches
      { c with rejected := c.rejected ++ [rejected] } :=
  ⟨h.duplicates, by simp only [h.rejected], h.staged, h.forked⟩

theorem duplicate (h : s.Matches c) : ({ s with duplicates := s.duplicates + 1 } : Log.Sorted).Matches
    { c with duplicates := c.duplicates + 1 } :=
  ⟨by simp only [h.duplicates], h.rejected, h.staged, h.forked⟩

theorem fork (h : s.Matches c) (event : Event) :
    ({ s with forked := s.forked ++ [event] } : Log.Sorted).Matches
      { c with forked := c.forked ++ [event] } :=
  ⟨h.duplicates, h.rejected, h.staged, by simp only [h.forked]⟩

theorem stage (h : s.Matches c) {held : Held} (hnew : s.staged.find held.cid = none) :
    ({ s with staged := s.staged ++ [held] } : Log.Sorted).Matches
      { c with staged := c.staged.set held.cid held } :=
  ⟨h.duplicates, h.rejected, h.staged.set hnew, h.forked⟩

end Log.Sorted.Matches

end Estoc.EventStore
