import Estoc.EventStore.ObjectSteps

/-!
# Streams over the object store

A stream takes its object a chunk at a time, outside the writer lock, while whatever is
held under its CID may be replaced, removed and put again. What a stream is told apart
by, here and not in the code, is the object it opened on: what was stored under the CID,
and how often anything had landed there or been removed. A read drained in one go is a
stream whose steps have nothing between them.
-/

set_option linter.unusedSectionVars false

namespace Estoc.EventStore

open Utf16 (JsString)
open Estoc.Dasl (DaslCid)
open Effect (Keeps)

namespace Streams

inductive Phase where
  | open_
  | complete
  | failed (error : ObjectError)

structure Stream where
  read : SqliteObjectStore.ObjectRead
  delivered : List (List UInt8)
  phase : Phase
  opened : Stored
  landings : Nat

/-- A put through a preparation: it reads its source, or what it staged awaits its hold, or
it awaits its end. -/
inductive Flight where
  | reading (put : SqliteObjectStore.Put)
  | staged (object : Staged.Object)
  | over

structure State where
  store : SqliteObjectStore
  preparations : List SqlitePreparation
  puts : List (Nat × Flight)
  streams : List Stream
  /-- How often an object has landed under a CID or been removed. -/
  landings : JsString → Nat

inductive Step where
  | prepare
  | putObject (i : Nat) (cid : JsString)
  | putRaw (i : Nat)
  | feed (k : Nat) (chunk : List UInt8)
  | finish (k : Nat)
  /-- The source throws. -/
  | abandon (k : Nat) (error : ObjectError)
  | hold (k : Nat)
  | settle (k : Nat)
  | hasPrepared (i : Nat) (cid : JsString)
  | reuse (i : Nat) (cid : JsString)
  /-- The transaction a preparation publishes in, and what else there is in it. -/
  | publish (i : Nat) (more : Except ObjectError Unit)
  | leave (i : Nat) (resolved : Bool)
  | finishUp (i : Nat)
  | collect (keep : List JsString)
  | stat (cid : JsString)
  | has (cid : JsString)
  | open_ (cid : JsString)
  | next_ (k : Nat)

namespace State

def new (store : SqliteObjectStore) : State := ⟨store, [], [], [], fun _ => 0⟩

variable (P : Packages) (st : State)

def landed (cids : List JsString) : State :=
  { st with landings := fun cid => st.landings cid + cids.count cid }

/-- A call on the store. -/
def onStore {α : Type} (x : SqliteObjectStore.Work α) : Except ObjectError α × State :=
  let (result, store) := x st.store
  (result, { st with store })

/-- A call on a preparation. -/
def through {α : Type} (i : Nat) (prepared : SqlitePreparation) (x : SqlitePreparation.Work α) :
    Except ObjectError α × State :=
  let (result, p) := x ⟨st.store, prepared⟩
  (result, { st with store := p.store, preparations := st.preparations.set i p.prepared })

/-- A put that a preparation took in reads from here. -/
def begins (i : Nat) : Except ObjectError SqliteObjectStore.Put × State → State
  | (.ok put, st) => { st with puts := st.puts ++ [(i, .reading put)] }
  | (.error _, st) => st

/-- What staging came to: it goes on, or what it staged is dropped. -/
def goesOn (k i token : Nat) : Except ObjectError Flight × State → State
  | (.ok flight, st) => { st with puts := st.puts.set k (i, flight) }
  | (.error _, st) => { (st.onStore (SqliteObjectStore.drop token)).2 with puts := st.puts.set k (i, .over) }

/-- What a pull came to. -/
def pulled (k : Nat) (stream : Stream) :
    Except ObjectError (Option (List UInt8) × SqliteObjectStore.ObjectRead) × State → State
  | (.ok (some chunk, read), st) =>
    { st with streams := st.streams.set k { stream with read, delivered := stream.delivered ++ [chunk] } }
  | (.ok (none, read), st) =>
    { st with streams := st.streams.set k { stream with read, phase := .complete } }
  | (.error error, st) =>
    { st with streams := st.streams.set k { stream with phase := .failed error } }

def opens (cid : JsString) : Except ObjectError (Option SqliteObjectStore.ObjectRead) × State → State
  | (.ok (some read), st) =>
    { st with streams := st.streams ++ [⟨read, [], .open_, st.store.under cid, st.landings cid⟩] }
  | (_, st) => st

/-- A step of the store, where one is due. -/
def step : Step → State
  | .prepare => { st with preparations := st.preparations ++ [.new] }
  | .putObject i cid =>
    match st.preparations[i]? with
    | some prepared => begins i (st.through i prepared (SqlitePreparation.putObject cid))
    | none => st
  | .putRaw i =>
    match st.preparations[i]? with
    | some prepared => begins i (st.through i prepared SqlitePreparation.putRaw)
    | none => st
  | .feed k chunk =>
    match st.puts[k]? with
    | some (i, .reading put) =>
      goesOn k i put.token (st.onStore do
        let put ← SqliteObjectStore.feed put chunk
        pure (.reading put))
    | _ => st
  | .finish k =>
    match st.puts[k]? with
    | some (i, .reading put) =>
      goesOn k i put.token (st.onStore do
        let object ← SqliteObjectStore.finish P put
        pure (.staged object))
    | _ => st
  | .abandon k error =>
    match st.puts[k]? with
    | some (i, .reading put) => goesOn k i put.token (.error error, st)
    | _ => st
  | .hold k =>
    match st.puts[k]? with
    | some (i, .staged object) =>
      match st.preparations[i]? with
      | some prepared =>
        let (_, st) := st.through i prepared (SqlitePreparation.hold object)
        { st with puts := st.puts.set k (i, .over) }
      | none => st
    | _ => st
  | .settle k =>
    match st.puts[k]? with
    | some (i, .over) =>
      match st.preparations[i]? with
      | some prepared =>
        let (_, st) := st.through i prepared SqlitePreparation.settle
        { st with puts := st.puts.eraseIdx k }
      | none => st
    | _ => st
  | .hasPrepared i cid =>
    match st.preparations[i]? with
    | some prepared => (st.through i prepared (SqlitePreparation.has cid)).2
    | none => st
  | .reuse i cid =>
    match st.preparations[i]? with
    | some prepared => (st.through i prepared (SqlitePreparation.reuse cid)).2
    | none => st
  | .publish i more =>
    match st.preparations[i]? with
    | some prepared =>
      match st.through i prepared (SqlitePreparation.transaction more) with
      | (.ok (accepted, _), st) => st.landed (SqliteObjectStore.landedOf accepted)
      | (.error _, st) => st
    | none => st
  | .leave i resolved =>
    match st.preparations[i]? with
    | some prepared =>
      if prepared.phase = .ended then st
      else (st.through i prepared (SqlitePreparation.leave resolved)).2
    | none => st
  | .finishUp i =>
    match st.preparations[i]? with
    | some prepared =>
      if prepared.phase = .ended ∧ prepared.reading = 0 then
        (st.through i prepared SqlitePreparation.finishUp).2
      else st
    | none => st
  | .collect keep =>
    match st.onStore (SqliteObjectStore.collect keep) with
    | (.ok removed, st) => st.landed removed
    | (.error _, st) => st
  | .stat cid => (st.onStore (SqliteObjectStore.stat cid)).2
  | .has cid => (st.onStore (SqliteObjectStore.has cid)).2
  | .open_ cid => opens cid (st.onStore (SqliteObjectStore.open_ cid))
  | .next_ k =>
    match st.streams[k]? with
    | some stream =>
      match stream.phase with
      | .open_ => pulled k stream (st.onStore (SqliteObjectStore.next_ P stream.read))
      | _ => st
    | none => st

def run (steps : List Step) : State := steps.foldl (step P) st

end State

/-! ## What a step moves -/

open SqliteObjectStore (Quiet Spares)

variable {P : Packages} {st st' : State} {stream : Stream}

/-- What a step moves under the CIDs, and the streams it leaves. -/
structure Moves (st st' : State) (cids : List JsString) : Prop where
  spares : Spares st.store st'.store cids
  landings : ∀ cid, st'.landings cid = st.landings cid + cids.count cid
  streams : st'.streams = st.streams

theorem moves_of_quiet (hquiet : Quiet st.store st'.store) (hlandings : st'.landings = st.landings)
    (hstreams : st'.streams = st.streams) : Moves st st' [] where
  spares := hquiet.spares
  landings cid := by rw [hlandings, List.count_nil, Nat.add_zero]
  streams := hstreams

theorem Moves.refl (st : State) : Moves st st [] := moves_of_quiet (Std.Refl.refl _) rfl rfl

theorem through_moves {α : Type} {x : SqlitePreparation.Work α} (i : Nat) (prepared : SqlitePreparation)
    (h : Keeps (SqlitePreparation.Store Quiet) x) : Moves st (st.through i prepared x).2 [] :=
  moves_of_quiet (h ⟨st.store, prepared⟩) rfl rfl

theorem onStore_moves {α : Type} {x : SqliteObjectStore.Work α} (h : Keeps Quiet x) :
    Moves st (st.onStore x).2 [] := moves_of_quiet (h st.store) rfl rfl

theorem Moves.begins {i : Nat} {r : Except ObjectError SqliteObjectStore.Put × State}
    (h : Moves st r.2 []) : Moves st (State.begins i r) [] := by
  obtain ⟨_ | put, st'⟩ := r
  · exact h
  · exact ⟨h.spares, h.landings, h.streams⟩

theorem Moves.goesOn {k i token : Nat} {r : Except ObjectError Flight × State} (h : Moves st r.2 []) :
    Moves st (State.goesOn k i token r) [] := by
  obtain ⟨_ | flight, st'⟩ := r
  · have hdrop := h.spares.trans (SqliteObjectStore.drop_quiet token st'.store).spares
    exact ⟨hdrop, h.landings, h.streams⟩
  · exact ⟨h.spares, h.landings, h.streams⟩

/-- A publication lands what it accepts, or moves nothing. -/
theorem publish_moves (i : Nat) (more : Except ObjectError Unit) (st : State) :
    ∃ cids, Moves st (st.step P (.publish i more)) cids := by
  rw [State.step]
  split
  · next prepared _ =>
      rw [State.through]
      rcases SqlitePreparation.transaction_cases more ⟨st.store, prepared⟩ with
        ⟨accepted, a, p, hrun, -, hpublish⟩ | ⟨e, p, hrun, htables, haccepting⟩
      · rw [hrun]
        exact ⟨_, hpublish.accepts.spares, fun _ => rfl, rfl⟩
      · rw [hrun]
        exact ⟨[], SqlitePreparation.spares_of_tables htables haccepting.grows, fun _ => rfl, rfl⟩
  · exact ⟨[], Moves.refl st⟩

theorem collect_moves (keep : List JsString) (hrowids : (st.store.tables.objects.map ObjectRow.rowid).Nodup) :
    ∃ cids, Moves st (st.step P (.collect keep)) cids := by
  rw [State.step, State.onStore]
  rcases SqliteObjectStore.collect_cases keep st.store with ⟨removed, s', hrun, hspares⟩ | ⟨e, hrun⟩
  · rw [hrun]
    exact ⟨removed, hspares hrowids, fun _ => rfl, rfl⟩
  · rw [hrun]
    exact ⟨[], Moves.refl st⟩

/-- A step that is of no stream. -/
def Step.besideStreams : Step → Prop
  | .open_ _ | .next_ _ => False
  | _ => True

theorem step_moves {s : Step} (hs : s.besideStreams)
    (hrowids : (st.store.tables.objects.map ObjectRow.rowid).Nodup) :
    ∃ cids, Moves st (st.step P s) cids := by
  cases s with
  | publish i more => exact publish_moves i more st
  | collect keep => exact collect_moves keep hrowids
  | open_ _ | next_ _ => exact hs.elim
  | prepare => exact ⟨[], moves_of_quiet (Std.Refl.refl _) rfl rfl⟩
  | stat cid => exact ⟨[], onStore_moves (SqliteObjectStore.stat_quiet cid)⟩
  | has cid => exact ⟨[], onStore_moves (SqliteObjectStore.has_quiet cid)⟩
  | putObject i cid =>
      refine ⟨[], ?_⟩
      rw [State.step]
      split
      · exact (through_moves i _ (SqlitePreparation.putObject_quiet cid)).begins
      · exact Moves.refl st
  | putRaw i =>
      refine ⟨[], ?_⟩
      rw [State.step]
      split
      · exact (through_moves i _ SqlitePreparation.putRaw_quiet).begins
      · exact Moves.refl st
  | feed k chunk =>
      refine ⟨[], ?_⟩
      rw [State.step]
      split
      · refine (onStore_moves ?_).goesOn
        exact Keeps.bind (SqliteObjectStore.feed_quiet _ _) fun _ => Keeps.pure _
      · exact Moves.refl st
  | finish k =>
      refine ⟨[], ?_⟩
      rw [State.step]
      split
      · refine (onStore_moves ?_).goesOn
        exact Keeps.bind (SqliteObjectStore.finish_quiet P _) fun _ => Keeps.pure _
      · exact Moves.refl st
  | abandon k error =>
      refine ⟨[], ?_⟩
      rw [State.step]
      split
      · exact Moves.goesOn (Moves.refl st)
      · exact Moves.refl st
  | hold k =>
      refine ⟨[], ?_⟩
      rw [State.step]
      split
      · next i object _ =>
          split
          · next prepared _ =>
              exact moves_of_quiet (SqlitePreparation.hold_quiet object ⟨st.store, prepared⟩) rfl rfl
          · exact Moves.refl st
      · exact Moves.refl st
  | settle k =>
      refine ⟨[], ?_⟩
      rw [State.step]
      split
      · split
        · exact moves_of_quiet (Std.Refl.refl _) rfl rfl
        · exact Moves.refl st
      · exact Moves.refl st
  | hasPrepared i cid =>
      refine ⟨[], ?_⟩
      rw [State.step]
      split
      · exact through_moves i _ (SqlitePreparation.has_quiet cid)
      · exact Moves.refl st
  | reuse i cid =>
      refine ⟨[], ?_⟩
      rw [State.step]
      split
      · exact through_moves i _ (SqlitePreparation.reuse_quiet cid)
      · exact Moves.refl st
  | leave i resolved =>
      refine ⟨[], ?_⟩
      rw [State.step]
      split
      · split
        · exact Moves.refl st
        · exact through_moves i _ (SqlitePreparation.update_keeps _)
      · exact Moves.refl st
  | finishUp i =>
      refine ⟨[], ?_⟩
      rw [State.step]
      split
      · split
        · exact through_moves i _ SqlitePreparation.finishUp_quiet
        · exact Moves.refl st
      · exact Moves.refl st

/-! ## Streams -/

/-- The chunks delivered are the first ones of an object, each of the length that the
layout gives it. -/
structure Laid (opened : Stored) (size : Nat) (delivered : List (List UInt8)) : Prop where
  stored : ∀ i, (h : i < delivered.length) → opened.chunk i = some delivered[i]
  lengths : ∀ i, (h : i < delivered.length) →
    delivered[i].length = min CHUNK_BYTES (size - i * CHUNK_BYTES)

theorem Laid.nil (opened : Stored) (size : Nat) : Laid opened size [] :=
  ⟨fun _ h => (by cases h), fun _ h => (by cases h)⟩

theorem Laid.snoc {opened : Stored} {size : Nat} {delivered : List (List UInt8)} {chunk : List UInt8}
    (h : Laid opened size delivered) (hstored : opened.chunk delivered.length = some chunk)
    (hlength : chunk.length = min CHUNK_BYTES (size - delivered.length * CHUNK_BYTES)) :
    Laid opened size (delivered ++ [chunk]) := by
  refine ⟨fun i hi => ?_, fun i hi => ?_⟩
  all_goals
    rw [List.length_append, List.length_singleton] at hi
    rcases Nat.lt_succ_iff_lt_or_eq.mp hi with hi | rfl
  · rw [List.getElem_append_left hi]
    exact h.stored i hi
  · rw [List.getElem_concat_length]
    exact hstored
    rfl
  · rw [List.getElem_append_left hi]
    exact h.lengths i hi
  · rw [List.getElem_concat_length]
    exact hlength
    rfl

/-- The object a stream opened on is the one that is stored. -/
structure Current (st : State) (stream : Stream) : Prop where
  landings : st.landings stream.read.cid = stream.landings
  under : st.store.under stream.read.cid = stream.opened

/-- What a stream delivered once it has completed: all of the object it opened on, as its
size and its chunks lay it out, and bytes that hash to the CID. -/
structure Whole (P : Packages) (stream : Stream) : Prop where
  hashes : ∃ cid, rawCidOf stream.read.cid = .ok cid ∧
    (P.sha256 stream.delivered.flatten).bytes = cid.digest
  size : stream.opened.size = some stream.delivered.flatten.length
  count : stream.opened.chunks.length = stream.delivered.length
  laid : Laid stream.opened stream.delivered.flatten.length stream.delivered

/-- What holds of a stream at every moment. -/
structure Sound (P : Packages) (st : State) (stream : Stream) : Prop where
  cid : CidText stream.read.cid
  held : stream.opened.objects ≠ []
  epoch : stream.read.epoch ≤ st.store.epoch stream.read.cid
  current : st.store.epoch stream.read.cid = stream.read.epoch → Current st stream
  size : stream.opened.size = some stream.read.size
  chunks : stream.read.chunks = stream.delivered.length
  hashed : stream.read.hashed = stream.delivered.flatten
  got : stream.read.got = stream.delivered.flatten.length
  far : stream.read.got = min stream.read.size (stream.delivered.length * CHUNK_BYTES)
  laid : Laid stream.opened stream.read.size stream.delivered
  complete : stream.phase = .complete → Whole P stream

/-- What a step does not move under a CID stays so for its streams. -/
theorem Sound.spares {cids : List JsString} (h : Sound P st stream)
    (hspares : Spares st.store st'.store cids)
    (hlandings : ∀ cid, st'.landings cid = st.landings cid + cids.count cid) : Sound P st' stream where
  cid := h.cid
  held := h.held
  epoch := h.epoch.trans (hspares.grows _)
  current hepoch := by
    have hle := h.epoch
    have hgrows := hspares.grows stream.read.cid
    have hbefore : st.store.epoch stream.read.cid = stream.read.epoch := by omega
    have hcurrent := h.current hbefore
    have hheld : st.store.Holds stream.read.cid := by
      rw [SqliteObjectStore.Holds, hcurrent.under]
      exact h.held
    obtain ⟨hunder, hnot⟩ := hspares.stored _ h.cid hheld (hepoch.trans hbefore.symm)
    refine ⟨?_, hunder.trans hcurrent.under⟩
    rw [hlandings, List.count_eq_zero_of_not_mem hnot, Nat.add_zero]
    exact hcurrent.landings
  size := h.size
  chunks := h.chunks
  hashed := h.hashed
  got := h.got
  far := h.far
  laid := h.laid
  complete := h.complete

/-- The rowids are one to a row, and every stream is sound. -/
structure Good (P : Packages) (st : State) : Prop where
  rowids : (st.store.tables.objects.map ObjectRow.rowid).Nodup
  streams : ∀ stream ∈ st.streams, Sound P st stream

theorem Good.moves {cids : List JsString} (h : Good P st) (hmoves : Moves st st' cids) : Good P st' := by
  refine ⟨hmoves.spares.rowids h.rowids, fun stream hstream => ?_⟩
  rw [hmoves.streams] at hstream
  exact (h.streams stream hstream).spares hmoves.spares hmoves.landings

theorem Sound.quiet (h : Sound P st stream) (hquiet : Quiet st.store st'.store)
    (hlandings : st'.landings = st.landings) : Sound P st' stream :=
  h.spares hquiet.spares fun cid => by rw [hlandings, List.count_nil, Nat.add_zero]

theorem Good.quiet (h : Good P st) (hquiet : Quiet st.store st'.store)
    (hlandings : st'.landings = st.landings) (hstreams : ∀ stream ∈ st'.streams,
      stream ∈ st.streams ∨ Sound P st' stream) : Good P st' := by
  refine ⟨hquiet.spares.rowids h.rowids, fun stream hstream => ?_⟩
  rcases hstreams stream hstream with hold | hnew
  · exact (h.streams stream hold).quiet hquiet hlandings
  · exact hnew

theorem open_eq (cid : JsString) : SqliteObjectStore.open_ cid =
    (SqliteObjectStore.sound cid >>= fun present =>
      pure (present.map (SqliteObjectStore.ObjectRead.start cid))) := rfl

/-- A stream opens on what is stored as it opens. -/
theorem Good.opens (h : Good P st) (cid : JsString) : Good P (st.step P (.open_ cid)) := by
  rw [State.step, State.onStore, open_eq]
  rcases SqliteObjectStore.sound_cases cid st.store with
    ⟨present, hsound, hcid, hheld, hsize, hepoch⟩ | hsound | ⟨e, hsound⟩ | ⟨e, error, hsound, -⟩
  · rw [Effect.bind_run hsound]
    have hnew : Sound P st ⟨.start cid present, [], .open_, st.store.under cid, st.landings cid⟩ :=
      { cid := hcid
        held := hheld
        epoch := hepoch.le
        current := fun _ => ⟨rfl, rfl⟩
        size := hsize
        chunks := rfl
        hashed := rfl
        got := rfl
        far := by simp [SqliteObjectStore.ObjectRead.start]
        laid := .nil _ _
        complete := fun hphase => (by cases hphase) }
    refine h.quiet (Std.Refl.refl _) rfl fun stream hstream => ?_
    rcases List.mem_append.mp hstream with hstream | hstream
    · exact .inl hstream
    · rw [List.mem_singleton.mp hstream]
      exact .inr (hnew.quiet (Std.Refl.refl _) rfl)
  · rw [Effect.bind_run hsound]
    exact h
  · rw [Effect.bind_throw hsound]
    exact h
  · rw [Effect.bind_throw hsound]
    exact h.quiet ⟨rfl, rfl, rfl⟩ rfl fun stream hstream => .inl hstream

/-- A chunk that comes next is the next one of the object the stream opened on. -/
theorem Sound.chunk (h : Sound P st stream) (hepoch : st.store.epoch stream.read.cid = stream.read.epoch)
    {chunk : List UInt8} (hsize : stream.read.got < stream.read.size)
    (hchunk : (st.store.under stream.read.cid).chunk stream.read.chunks = some chunk)
    (hlength : chunk.length = min CHUNK_BYTES (stream.read.size - stream.read.got)) :
    Sound P st { stream with
      read := { stream.read with
        chunks := stream.read.chunks + 1
        got := stream.read.got + chunk.length
        hashed := stream.read.hashed ++ chunk }
      delivered := stream.delivered ++ [chunk]
      phase := .open_ } := by
  have hcurrent := h.current hepoch
  have hfar := h.far
  rw [hcurrent.under, h.chunks] at hchunk
  have hgot : stream.read.got = stream.delivered.length * CHUNK_BYTES := by omega
  exact
    { cid := h.cid
      held := h.held
      epoch := h.epoch
      current := fun _ => ⟨hcurrent.landings, hcurrent.under⟩
      size := h.size
      chunks := by simp [h.chunks]
      hashed := by simp [h.hashed]
      got := by simp [h.got]
      far := by
        rw [List.length_append, List.length_singleton, Nat.succ_mul]
        dsimp only
        omega
      laid := h.laid.snoc hchunk (hgot ▸ hlength)
      complete := fun hphase => (by cases hphase) }

/-- A stream that comes to its end has delivered the object it opened on. -/
theorem Sound.whole (h : Sound P st stream) (hepoch : st.store.epoch stream.read.cid = stream.read.epoch)
    {parsed : DaslCid} (hcid : rawCidOf stream.read.cid = .ok parsed)
    (hsize : stream.read.size ≤ stream.read.got)
    (hcount : (st.store.under stream.read.cid).chunks.length = stream.read.chunks)
    (hdigest : (P.sha256 stream.read.hashed).bytes = parsed.digest) : Whole P stream := by
  have hfar := h.far
  have hgot := h.got
  have hlength : stream.read.size = stream.delivered.flatten.length := by omega
  refine ⟨⟨parsed, hcid, h.hashed ▸ hdigest⟩, hlength ▸ h.size, ?_, hlength ▸ h.laid⟩
  rw [← h.chunks, ← hcount, (h.current hepoch).under]

/-- A stream put back where it was, with what became of it. -/
theorem Good.set (h : Good P st) {k : Nat} {store : SqliteObjectStore} (hquiet : Quiet st.store store)
    {stream : Stream} (hstream : Sound P st stream) :
    Good P { st with store, streams := st.streams.set k stream } := by
  refine h.quiet hquiet rfl fun other hother => ?_
  rcases List.mem_or_eq_of_mem_set hother with hmem | rfl
  · exact .inl hmem
  · exact .inr (hstream.quiet hquiet rfl)

theorem Sound.failed (h : Sound P st stream) (error : ObjectError) :
    Sound P st { stream with phase := .failed error } :=
  { h with
    current := fun hepoch => ⟨(h.current hepoch).landings, (h.current hepoch).under⟩
    complete := fun hphase => (by cases hphase) }

theorem Sound.completed (h : Sound P st stream) (hwhole : Whole P stream) :
    Sound P st { stream with phase := .complete } :=
  { h with
    current := fun hepoch => ⟨(h.current hepoch).landings, (h.current hepoch).under⟩
    complete := fun _ => ⟨hwhole.hashes, hwhole.size, hwhole.count, hwhole.laid⟩ }

theorem Good.next (h : Good P st) (k : Nat) : Good P (st.step P (.next_ k)) := by
  rw [State.step]
  split
  · next stream hk =>
      split
      · next hphase =>
          have hsound := h.streams stream (List.mem_of_getElem? hk)
          obtain ⟨parsed, hcid⟩ := hsound.cid
          rw [State.onStore]
          rcases SqliteObjectStore.next_cases (P := P) hcid st.store with
            ⟨e, hrun⟩ | ⟨hepoch, ⟨e, error, hrun⟩ | ⟨hsize, chunk, hrun, hchunk, hlength⟩ |
              ⟨hsize, hrun, hcount, hdigest⟩⟩
          · rw [hrun]
            exact h.set (Std.Refl.refl _) (hsound.failed e)
          · have hquiet : Quiet st.store (SqliteObjectStore.condemned stream.read.cid error st.store) :=
              ⟨rfl, rfl, rfl⟩
            rw [hrun]
            exact h.set hquiet (hsound.failed e)
          · rw [hrun]
            have hnext := hsound.chunk hepoch hsize hchunk hlength
            rw [← hphase] at hnext
            exact h.set (Std.Refl.refl _) hnext
          · rw [hrun]
            exact h.set (Std.Refl.refl _)
              (hsound.completed (hsound.whole hepoch hcid hsize hcount hdigest))
      · exact h
  · exact h

theorem Good.step (h : Good P st) (s : Step) : Good P (st.step P s) := by
  by_cases hs : s.besideStreams
  · obtain ⟨cids, hmoves⟩ := step_moves (P := P) hs h.rowids
    exact h.moves hmoves
  · cases s with
    | open_ cid => exact h.opens cid
    | next_ k => exact h.next k
    | _ => exact absurd trivial hs

theorem Good.run (h : Good P st) (steps : List Step) : Good P (st.run P steps) := by
  induction steps generalizing st with
  | nil => exact h
  | cons s steps ih => exact ih (h.step s)

theorem good_new {store : SqliteObjectStore}
    (hrowids : (store.tables.objects.map ObjectRow.rowid).Nodup) : Good P (State.new store) :=
  ⟨hrowids, fun _ h => (by cases h)⟩

/-! ## Damage -/

/-- What is known of damage moves under one CID at most. -/
def DamageOf (cid : JsString) (before after : SqliteObjectStore) : Prop :=
  ∀ other, other ≠ cid → after.damage.get? other = before.damage.get? other

theorem damageOf_condemned (cid error : JsString) (store : SqliteObjectStore) :
    DamageOf cid store (SqliteObjectStore.condemned cid error store) :=
  fun _ hother => OMap.get?_set_ne _ _ hother

/-- A stream that finds damage finds it in the object it opened on, while that is stored. -/
theorem Good.attributes (h : Good P st) {k : Nat} (hk : st.streams[k]? = some stream) :
    DamageOf stream.read.cid st.store (st.step P (.next_ k)).store ∧
      ((st.step P (.next_ k)).store.damage = st.store.damage ∨ Current st stream) := by
  rw [State.step, hk]
  dsimp only
  split
  · have hsound := h.streams stream (List.mem_of_getElem? hk)
    obtain ⟨parsed, hcid⟩ := hsound.cid
    rw [State.onStore]
    rcases SqliteObjectStore.next_cases (P := P) hcid st.store with
      ⟨e, hrun⟩ | ⟨hepoch, hnext⟩
    · rw [hrun]
      exact ⟨fun _ _ => rfl, .inl rfl⟩
    · refine ⟨?_, .inr (hsound.current hepoch)⟩
      rcases hnext with ⟨e, error, hrun⟩ | ⟨-, chunk, hrun, -, -⟩ | ⟨-, hrun, -, -⟩
      · rw [hrun]
        exact damageOf_condemned _ _ _
      · rw [hrun]
        exact fun _ _ => rfl
      · rw [hrun]
        exact fun _ _ => rfl
  · exact ⟨fun _ _ => rfl, .inl rfl⟩

/-- A step that looks for an object, and for which. -/
def Step.looksFor : Step → Option JsString
  | .stat cid | .has cid | .open_ cid => some cid
  | _ => none

theorem sound_pure {α : Type} (cid : JsString) (f : Option Present → α)
    (s : SqliteObjectStore) :
    ((SqliteObjectStore.sound cid >>= fun present => pure (f present)) s).2 =
      (SqliteObjectStore.sound cid s).2 := by
  rcases hrun : SqliteObjectStore.sound cid s with ⟨e | present, s'⟩
  · rw [Effect.bind_throw hrun]
  · rw [Effect.bind_run hrun]
    rfl

theorem looks_store {s : Step} {cid : JsString} (hs : s.looksFor = some cid) :
    (st.step P s).store = (SqliteObjectStore.sound cid st.store).2 := by
  cases s <;> cases hs
  · exact sound_pure cid _ st.store
  · exact sound_pure cid _ st.store
  · rw [← sound_pure cid (fun present => present.map (SqliteObjectStore.ObjectRead.start cid)),
      ← open_eq, State.step, State.onStore]
    rcases SqliteObjectStore.open_ cid st.store with ⟨e | ⟨- | read⟩, store⟩ <;> rfl

/-- A read that finds damage as it starts finds it in what is stored then. -/
theorem looks_attributes {s : Step} {cid : JsString} (hs : s.looksFor = some cid) :
    DamageOf cid st.store (st.step P s).store ∧
      ((st.step P s).store.damage = st.store.damage ∨ st.store.Holds cid) := by
  rw [looks_store hs]
  rcases SqliteObjectStore.sound_cases cid st.store with
    ⟨present, hsound, -⟩ | hsound | ⟨e, hsound⟩ | ⟨e, error, hsound, hheld⟩
  · rw [hsound]
    exact ⟨fun _ _ => rfl, .inl rfl⟩
  · rw [hsound]
    exact ⟨fun _ _ => rfl, .inl rfl⟩
  · rw [hsound]
    exact ⟨fun _ _ => rfl, .inl rfl⟩
  · rw [hsound]
    exact ⟨damageOf_condemned _ _ _, .inr hheld⟩

/-- In every run, a stream that has completed delivered one object whole, the one it opened
on; and a read finds damage only in the object it opened on, while that is stored. -/
theorem streams_of_one_object (P : Packages) {store : SqliteObjectStore}
    (hrowids : (store.tables.objects.map ObjectRow.rowid).Nodup) (steps : List Step) {st : State}
    (hst : st = (State.new store).run P steps) :
    (∀ stream ∈ st.streams, stream.phase = .complete → Whole P stream) ∧
      (∀ k stream, st.streams[k]? = some stream →
        DamageOf stream.read.cid st.store (st.step P (.next_ k)).store ∧
          ((st.step P (.next_ k)).store.damage = st.store.damage ∨ Current st stream)) ∧
      ∀ s cid, Step.looksFor s = some cid →
        DamageOf cid st.store (st.step P s).store ∧
          ((st.step P s).store.damage = st.store.damage ∨ st.store.Holds cid) := by
  have hgood : Good P st := hst ▸ (good_new hrowids).run steps
  refine ⟨fun stream hstream => (hgood.streams stream hstream).complete, ?_, ?_⟩
  · intro k stream hk
    exact hgood.attributes hk
  · intro s cid hs
    exact looks_attributes hs

/-- An empty store, and an object put in it, read and collected while it is read again. -/
def exampleStore : SqliteObjectStore where
  writable := true
  maxObjectBytes := 16
  maxStagedBytes := 16
  tables := ⟨[], [], []⟩
  tokens := 0
  stagedBytesByToken := OMap.empty
  stagedBytes := 0
  damage := OMap.empty
  epochs := OMap.empty

def exampleSteps : List Step :=
  let cid := (rawCidFromDigest (examplePackages.sha256 [1, 2, 3])).text
  [.prepare, .putRaw 0, .feed 0 [1, 2, 3], .finish 0, .hold 0, .settle 0, .publish 0 (.ok ()),
    .leave 0 true, .finishUp 0, .open_ cid, .open_ cid, .next_ 0, .next_ 0, .next_ 1,
    .collect [], .next_ 1]

theorem streams_of_one_object_example :
    let st := (State.new exampleStore).run examplePackages exampleSteps
    (exampleStore.tables.objects.map ObjectRow.rowid).Nodup ∧
      ∀ stream ∈ st.streams, stream.phase = .complete → Whole examplePackages stream := by
  have hrowids : (exampleStore.tables.objects.map ObjectRow.rowid).Nodup := List.nodup_nil
  exact ⟨hrowids, (streams_of_one_object examplePackages hrowids exampleSteps rfl).1⟩

end Streams

end Estoc.EventStore
