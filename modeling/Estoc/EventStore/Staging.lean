import Estoc.EventStore.ObjectSteps
import Estoc.Lib.Tally

/-!
# What is staged, and what is counted of it

The store counts in memory what its staging table holds: the bytes under each token, and all of
them. Whatever a step of the store does, it does to the rows and the counts of few tokens, and to
both alike: a token counted right stays so, what is counted in all is the sum, and it does not pass
the bound. Only a transaction that is taken back parts the two, since the rows it dropped are there
again.
-/

set_option linter.unusedSectionVars false

namespace Estoc.EventStore

open Utf16 (JsString)
open Estoc.Dasl (DaslCid)
open Effect (Keeps bind_ok bind_run read_bind change_bind lift_bind_ok)

namespace SqliteObjectStore

/-- The staged rows: under which token, and how many bytes. -/
def stagedRows (s : SqliteObjectStore) : List (Nat × Nat) :=
  s.tables.staging.map fun chunk => (chunk.token, chunk.bytes.length)

/-- The bytes staged. -/
def stagedSize (s : SqliteObjectStore) : Nat := (s.tables.staging.map fun chunk => chunk.bytes.length).sum

theorem stagedSize_eq (s : SqliteObjectStore) : s.stagedSize = (s.stagedRows.map Prod.snd).sum := by
  rw [stagedSize, stagedRows, List.map_map]
  rfl

/-- What the store counts of them. -/
def tally (s : SqliteObjectStore) : Tally Nat := ⟨s.stagedBytesByToken, s.stagedBytes⟩

/-- What is counted of a token is what is staged under it. -/
def Counted (s : SqliteObjectStore) (token : Nat) : Prop :=
  Tally.weightOf s.stagedRows token = s.tally.count token

/-- A token of which nothing is staged and nothing counted. -/
structure Clean (s : SqliteObjectStore) (token : Nat) : Prop where
  rows : ∀ row ∈ s.stagedRows, row.1 ≠ token
  counts : s.stagedBytesByToken.get? token = none

/-- What a step does to what is staged, which it does to few tokens. -/
structure Touches (may : Nat → Prop) (before after : SqliteObjectStore) : Prop where
  tokens : after.tokens = before.tokens
  bound : after.maxStagedBytes = before.maxStagedBytes
  rows : ∀ token, ¬ may token → after.stagedRows.filter (·.1 = token) = before.stagedRows.filter (·.1 = token)
  counts : ∀ token, ¬ may token →
    after.stagedBytesByToken.get? token = before.stagedBytesByToken.get? token
  counted : ∀ token, before.Counted token → after.Counted token
  addsUp : before.tally.AddsUp → after.tally.AddsUp
  within : before.stagedBytes ≤ before.maxStagedBytes → after.stagedBytes ≤ after.maxStagedBytes

variable {s s' : SqliteObjectStore} {may may' : Nat → Prop} {token : Nat}

instance : Std.Refl (Touches may) :=
  ⟨fun _ => ⟨rfl, rfl, fun _ _ => rfl, fun _ _ => rfl, fun _ h => h, id, id⟩⟩

instance : IsTrans SqliteObjectStore (Touches may) :=
  ⟨fun _ _ _ h h' => ⟨h'.tokens.trans h.tokens, h'.bound.trans h.bound,
    fun token hnot => (h'.rows token hnot).trans (h.rows token hnot),
    fun token hnot => (h'.counts token hnot).trans (h.counts token hnot),
    fun token hcounted => h'.counted token (h.counted token hcounted),
    fun hadds => h'.addsUp (h.addsUp hadds), fun hwithin => h'.within (h.within hwithin)⟩⟩

theorem Touches.mono (h : Touches may s s') (hmay : ∀ token, may token → may' token) : Touches may' s s' :=
  { h with
    rows := fun token hnot => h.rows token fun hin => hnot (hmay token hin)
    counts := fun token hnot => h.counts token fun hin => hnot (hmay token hin) }

theorem keeps_mono {α : Type} {x : Work α} (h : Keeps (Touches may) x)
    (hmay : ∀ token, may token → may' token) : Keeps (Touches may') x := fun s => (h s).mono hmay

/-- What stages nothing and drops nothing. -/
theorem touches_of_eq (hstaging : s'.tables.staging = s.tables.staging)
    (hcounts : s'.stagedBytesByToken = s.stagedBytesByToken) (hbytes : s'.stagedBytes = s.stagedBytes)
    (htokens : s'.tokens = s.tokens) (hbound : s'.maxStagedBytes = s.maxStagedBytes) : Touches may s s' := by
  have hrows : s'.stagedRows = s.stagedRows := by rw [stagedRows, hstaging, stagedRows]
  have htally : s'.tally = s.tally := by rw [tally, hcounts, hbytes, tally]
  refine ⟨htokens, hbound, fun _ _ => by rw [hrows], fun _ _ => by rw [hcounts], fun token h => ?_,
    fun h => htally ▸ h, fun h => by rw [hbytes, hbound]; exact h⟩
  rw [Counted, hrows, htally]
  exact h

theorem Touches.clean (h : Touches may s s') (hnot : ¬ may token) (hclean : s.Clean token) : s'.Clean token where
  rows row hrow heq := by
    have hin : row ∈ s'.stagedRows.filter (·.1 = token) := List.mem_filter.mpr ⟨hrow, decide_eq_true heq⟩
    rw [h.rows token hnot] at hin
    exact hclean.rows row (List.mem_of_mem_filter hin) heq
  counts := (h.counts token hnot).trans hclean.counts

theorem Clean.counted (h : s.Clean token) : s.Counted token := by
  have hrows : s.stagedRows.filter (·.1 = token) = [] :=
    List.filter_eq_nil_iff.mpr fun row hrow => by simpa using h.rows row hrow
  rw [Counted, Tally.weightOf, hrows, Tally.count, tally, h.counts]
  rfl

/-! ## Staging -/

theorem stagedRows_drop (token : Nat) (s : SqliteObjectStore) :
    (drop token s).2.stagedRows = s.stagedRows.filter (·.1 ≠ token) := by
  change (Sql.delete (·.token == token) s.tables.staging).map _ = (s.tables.staging.map _).filter _
  rw [Sql.delete, List.filter_map]
  congr 1
  refine List.filter_congr fun chunk _ => ?_
  by_cases h : chunk.token = token
  · simp [h]
  · simp [h]

theorem drop_touches (token : Nat) : Keeps (Touches (· = token)) (drop token) := by
  intro s
  have htally : (drop token s).2.tally = s.tally.drop token := rfl
  refine ⟨rfl, rfl, fun other hother => ?_, fun other hother => ?_, fun other hcounted => ?_,
    fun hadds => ?_, fun hwithin => ?_⟩
  · rw [stagedRows_drop, List.filter_filter]
    refine List.filter_congr fun row _ => ?_
    by_cases h : row.1 = other
    · simp [h, hother]
    · simp [h]
  · exact (OMap.get?_erase _ _ _).trans (if_neg hother)
  · rw [Counted, stagedRows_drop, htally, Tally.weightOf_filter_ne, Tally.count, Tally.get?_drop]
    split
    · rfl
    · exact hcounted
  · rw [htally]
    exact hadds.drop token
  · exact (Nat.sub_le _ _).trans hwithin

theorem drop_clean (token : Nat) (s : SqliteObjectStore) : (drop token s).2.Clean token where
  rows row hrow := by
    rw [stagedRows_drop] at hrow
    exact of_decide_eq_true (List.mem_filter.mp hrow).2
  counts := (OMap.get?_erase _ _ _).trans (if_pos rfl)

/-- A chunk staged, and counted. -/
def sealed (put : Put) (chunk : List UInt8) (s : SqliteObjectStore) : SqliteObjectStore :=
  { s with
    tables := { s.tables with staging := s.tables.staging ++ [⟨put.token, put.chunkNo, chunk⟩] }
    stagedBytes := s.stagedBytes + chunk.length
    stagedBytesByToken := s.stagedBytesByToken.set put.token
      ((s.stagedBytesByToken.get? put.token).getD 0 + chunk.length) }

theorem seal_cases (put : Put) (chunk : List UInt8) (s : SqliteObjectStore) :
    (∃ e, seal_ put chunk s = (.error e, s)) ∨
      (s.stagedBytes + chunk.length ≤ s.maxStagedBytes ∧
        seal_ put chunk s = (.ok { put with chunkNo := put.chunkNo + 1 }, sealed put chunk s)) := by
  rw [seal_, read_bind]
  split
  · exact .inl ⟨_, rfl⟩
  · next hroom => exact .inr ⟨Nat.not_lt.mp hroom, rfl⟩

theorem stagedRows_sealed (put : Put) (chunk : List UInt8) (s : SqliteObjectStore) :
    (sealed put chunk s).stagedRows = s.stagedRows ++ [(put.token, chunk.length)] := List.map_append

theorem sealed_touches (put : Put) (chunk : List UInt8)
    (hroom : s.stagedBytes + chunk.length ≤ s.maxStagedBytes) :
    Touches (· = put.token) s (sealed put chunk s) := by
  have htally : (sealed put chunk s).tally = s.tally.add put.token chunk.length := rfl
  refine ⟨rfl, rfl, fun other hother => ?_, fun other hother => ?_, fun other hcounted => ?_,
    fun hadds => ?_, fun _ => hroom⟩
  · rw [stagedRows_sealed, List.filter_append]
    simp [Ne.symm hother]
  · exact (OMap.get?_set _ _ _ _).trans (if_neg hother)
  · rw [Counted] at hcounted ⊢
    rw [stagedRows_sealed, htally, Tally.weightOf_append, Tally.weightOf_cons, hcounted]
    by_cases h : put.token = other
    · rw [if_pos h, ← h, Tally.count_add]
      rfl
    · rw [if_neg h, Tally.count, Tally.count, Tally.get?_add, if_neg (Ne.symm h)]
      rfl
  · rw [htally]
    exact hadds.add put.token chunk.length

theorem seal_touches (put : Put) (chunk : List UInt8) : Keeps (Touches (· = put.token)) (seal_ put chunk) := by
  intro s
  rcases seal_cases put chunk s with ⟨e, hrun⟩ | ⟨hroom, hrun⟩
  · rw [hrun]
    exact Std.Refl.refl _
  · rw [hrun]
    exact sealed_touches put chunk hroom

theorem sealAll_touches (chunks : List (List UInt8)) (put : Put) :
    Keeps (Touches (· = put.token)) (sealAll chunks put) ∧
      ∀ s put' s', sealAll chunks put s = (.ok put', s') → put'.token = put.token := by
  induction chunks generalizing put with
  | nil =>
      refine ⟨Keeps.pure _, fun s put' s' h => ?_⟩
      cases h
      rfl
  | cons chunk chunks ih =>
      refine ⟨fun s => ?_, fun s put' s' h => ?_⟩
      · rw [sealAll]
        rcases seal_cases put chunk s with ⟨e, hrun⟩ | ⟨hroom, hrun⟩
        · rw [Effect.bind_throw hrun]
          exact Std.Refl.refl _
        · rw [bind_run hrun]
          exact IsTrans.trans s _ _ (sealed_touches put chunk hroom)
            ((ih { put with chunkNo := put.chunkNo + 1 }).1 _)
      · rw [sealAll] at h
        rcases seal_cases put chunk s with ⟨e, hrun⟩ | ⟨hroom, hrun⟩
        · rw [Effect.bind_throw hrun] at h
          cases h
        · rw [bind_run hrun] at h
          exact (ih { put with chunkNo := put.chunkNo + 1 }).2 _ _ _ h

theorem feed_touches (put : Put) (chunk : List UInt8) :
    Keeps (Touches (· = put.token)) (feed put chunk) ∧
      ∀ s put' s', feed put chunk s = (.ok put', s') → put'.token = put.token := by
  refine ⟨Keeps.bind (Keeps.read _) fun bound => ?_, fun s put' s' h => ?_⟩
  · split
    · exact Keeps.throw _
    · exact (sealAll_touches _ { put with hashed := put.hashed ++ chunk, filled := _ }).1
  · rw [feed, read_bind] at h
    split at h
    · cases h
    · exact (sealAll_touches _ { put with hashed := put.hashed ++ chunk, filled := _ }).2 _ _ _ h

theorem packLast_touches (put : Put) : Keeps (Touches (· = put.token)) (packLast put) ∧
    ∀ s put' s', packLast put s = (.ok put', s') → put'.token = put.token := by
  rw [packLast]
  split
  · refine ⟨Keeps.pure _, fun s put' s' h => ?_⟩
    cases h
    rfl
  · refine ⟨seal_touches _ _, fun s put' s' h => ?_⟩
    rcases seal_cases put put.filled s with ⟨e, hrun⟩ | ⟨-, hrun⟩
    · rw [hrun] at h
      cases h
    · rw [hrun] at h
      cases h
      rfl

theorem finish_touches (P : Packages) (put : Put) : Keeps (Touches (· = put.token)) (finish P put) ∧
    ∀ s object s', finish P put s = (.ok object, s') → object.token = put.token := by
  obtain ⟨hkeeps, htoken⟩ := packLast_touches put
  refine ⟨Keeps.bind hkeeps fun ⟨want, _, _, _, _⟩ => ?_, fun s object s' h => ?_⟩
  · cases want with
    | none => exact Keeps.pure _
    | some want =>
        dsimp only
        split
        · exact Keeps.throw _
        · exact Keeps.pure _
  · rw [finish] at h
    obtain ⟨⟨want, token, filled, chunkNo, hashed⟩, q, hpack, h⟩ := bind_ok h
    rw [← htoken _ _ _ hpack]
    cases want with
    | none =>
        cases h
        rfl
    | some want =>
        dsimp only at h
        split at h
        · cases h
        · cases h
          rfl

/-! ## Acceptance -/

/-- An acceptance touches what it accepts, of which nothing is staged then; it counts nothing new. -/
structure Drops (may : Nat → Prop) (before after : SqliteObjectStore) : Prop extends Touches may before after where
  fewer : ∀ token, after.stagedBytesByToken.get? token = before.stagedBytesByToken.get? token ∨
    after.stagedBytesByToken.get? token = none

instance : Std.Refl (Drops may) := ⟨fun s => ⟨Std.Refl.refl s, fun _ => .inl rfl⟩⟩

instance : IsTrans SqliteObjectStore (Drops may) := by
  refine ⟨fun a b c h h' => ⟨IsTrans.trans a b c h.toTouches h'.toTouches, fun token => ?_⟩⟩
  rcases h'.fewer token with heq' | hnone
  · exact heq' ▸ h.fewer token
  · exact .inr hnone

theorem drops_of_eq (hstaging : s'.tables.staging = s.tables.staging)
    (hcounts : s'.stagedBytesByToken = s.stagedBytesByToken) (hbytes : s'.stagedBytes = s.stagedBytes)
    (htokens : s'.tokens = s.tokens) (hbound : s'.maxStagedBytes = s.maxStagedBytes) : Drops may s s' :=
  ⟨touches_of_eq hstaging hcounts hbytes htokens hbound, fun _ => .inl (by rw [hcounts])⟩

theorem drops_mono {α : Type} {x : Work α} (h : Keeps (Drops may) x) (hmay : ∀ token, may token → may' token) :
    Keeps (Drops may') x := fun s => ⟨(h s).toTouches.mono hmay, (h s).fewer⟩

theorem drop_drops (token : Nat) : Keeps (Drops (· = token)) (drop token) := by
  refine fun s => ⟨drop_touches token s, fun other => ?_⟩
  by_cases h : other = token
  · exact .inr ((OMap.get?_erase _ _ _).trans (if_pos h))
  · exact .inl ((OMap.get?_erase _ _ _).trans (if_neg h))

theorem inserted_staging {staged : Staged.Object} {tables tables' : ObjectTables}
    (h : inserted staged tables = .ok tables') : tables'.staging = tables.staging := by
  obtain ⟨row, chunks, -, -, -, -, rfl⟩ := inserted_eq_ok h
  rfl

theorem insert_drops (staged : Staged.Object) : Keeps (Drops (· = staged.token)) (insert staged) := by
  intro s
  rw [insert, read_bind]
  cases hinserted : inserted staged s.tables with
  | error e =>
      rw [Effect.lift_bind_error]
      exact Std.Refl.refl _
  | ok tables =>
      rw [lift_bind_ok, change_bind]
      have hstaging := inserted_staging hinserted
      exact IsTrans.trans s { s with tables } _ (drops_of_eq hstaging rfl rfl rfl rfl) (drop_drops staged.token _)

theorem insert_clean {staged : Staged.Object} (h : insert staged s = (.ok (), s')) : s'.Clean staged.token := by
  rw [insert, read_bind] at h
  cases hinserted : inserted staged s.tables with
  | error e =>
      rw [hinserted, Effect.lift_bind_error] at h
      cases h
  | ok tables =>
      rw [hinserted, lift_bind_ok, change_bind] at h
      cases h
      exact drop_clean _ _

theorem accept_drops (staged : Staged.Object) : Keeps (Drops (· = staged.token)) (accept staged) := by
  refine Keeps.bind (Keeps.read _) fun held => Keeps.bind (Keeps.read _) fun damaged => ?_
  split
  · exact Keeps.bind (drop_drops _) fun _ => Keeps.pure _
  · split
    · refine Keeps.bind (Keeps.change fun s => drops_of_eq rfl rfl rfl rfl rfl) fun _ => ?_
      refine Keeps.bind (Keeps.change fun s => drops_of_eq rfl rfl rfl rfl rfl) fun _ => ?_
      exact Keeps.bind (insert_drops _) fun _ => Keeps.pure _
    · exact Keeps.bind (insert_drops _) fun _ => Keeps.pure _

theorem accept_clean {staged : Staged.Object} {acceptance : Acceptance}
    (h : accept staged s = (.ok acceptance, s')) : s'.Clean staged.token := by
  rw [accept, read_bind, read_bind] at h
  split at h
  · have hdrop : drop staged.token s = (.ok (), (drop staged.token s).2) := rfl
    rw [bind_run hdrop] at h
    cases h
    exact drop_clean _ _
  · split at h
    · rw [SqliteObjectStore.move, change_bind, change_bind] at h
      obtain ⟨u, _, hinsert, h⟩ := bind_ok h
      cases h
      exact insert_clean hinsert
    · obtain ⟨u, _, hinsert, h⟩ := bind_ok h
      cases h
      exact insert_clean hinsert

/-! ## What leaves the staging alone -/

/-- What stages nothing, drops nothing and counts nothing. -/
abbrev Idle : SqliteObjectStore → SqliteObjectStore → Prop := Touches fun _ => False

theorem condemn_idle (cid error : JsString) : Keeps Idle (condemn cid error) :=
  Keeps.change fun _ => touches_of_eq rfl rfl rfl rfl rfl

theorem sound_idle (cid : JsString) : Keeps Idle (sound cid) := by
  refine Keeps.bind (Keeps.lift _) fun _ => Keeps.bind (Keeps.read _) fun s => ?_
  split
  · exact Keeps.throw _
  · split
    · exact Keeps.pure _
    · split
      · exact Keeps.pure _
      · exact Keeps.bind (condemn_idle _ _) fun _ => Keeps.throw _

theorem nextChunk_idle (read : ObjectRead) : Keeps Idle (nextChunk read) := by
  have hfail (error : JsString) : Keeps Idle (fail read error : Work (Option (List UInt8) × ObjectRead)) :=
    Keeps.bind (condemn_idle _ _) fun _ => Keeps.throw _
  refine Keeps.bind (Keeps.read _) fun chunks => ?_
  split
  · exact hfail _
  · dsimp only
    split
    · exact hfail _
    · split
      · exact hfail _
      · exact Keeps.pure _

theorem verify_idle (P : Packages) (read : ObjectRead) : Keeps Idle (verify P read) := by
  refine Keeps.bind (Keeps.read _) fun count => ?_
  split
  · exact Keeps.bind (condemn_idle _ _) fun _ => Keeps.throw _
  · refine Keeps.bind (Keeps.lift _) fun cid => ?_
    split
    · exact Keeps.bind (condemn_idle _ _) fun _ => Keeps.throw _
    · exact Keeps.pure _

theorem next_idle (P : Packages) (read : ObjectRead) : Keeps Idle (next_ P read) := by
  refine Keeps.bind (Keeps.read _) fun s => ?_
  split
  · exact Keeps.throw _
  · split
    · exact nextChunk_idle _
    · exact verify_idle P _

theorem name_idle (row : ObjectRow) : Keeps Idle (name row) := by
  have hdamage (where_ : JsString) (damage : Damaged) : Keeps Idle (do
      Effect.change fun s => { s with damage := s.damage.set where_ damage }
      pure none : Work (Option JsString)) :=
    Keeps.bind (Keeps.change fun _ => touches_of_eq rfl rfl rfl rfl rfl) fun _ => Keeps.pure _
  unfold name
  split
  · split
    · exact hdamage _ _
    · split
      · exact Keeps.pure _
      · exact hdamage _ _
      · exact Keeps.pure _
  · exact hdamage _ _

theorem removeRows_idle (kept : List JsString) (rows : List ObjectRow) : Keeps Idle (removeRows kept rows) := by
  have hremove (row : ObjectRow) : Keeps Idle (remove row) :=
    Keeps.change fun _ => touches_of_eq rfl rfl rfl rfl rfl
  induction rows with
  | nil => exact Keeps.pure _
  | cons row rows ih =>
      refine Keeps.bind (name_idle row) fun named => ?_
      cases named with
      | none =>
          refine Keeps.bind (hremove row) fun _ => ?_
          exact Keeps.bind (Keeps.change fun _ => touches_of_eq rfl rfl rfl rfl rfl) fun _ => ih
      | some cid =>
          dsimp only
          split
          · exact ih
          · exact Keeps.bind (hremove row) fun _ => Keeps.bind ih fun _ => Keeps.pure _

theorem forget_idle (cids : List JsString) : Keeps Idle (forget cids) := by
  induction cids with
  | nil => exact Keeps.pure _
  | cons cid cids ih =>
      refine Keeps.bind (Keeps.change fun _ => touches_of_eq rfl rfl rfl rfl rfl) fun _ => ?_
      exact Keeps.bind (Keeps.change fun _ => touches_of_eq rfl rfl rfl rfl rfl) fun _ => ih

theorem requireWritable_idle (what : JsString) : Keeps Idle (requireWritable what) := by
  refine Keeps.bind (Keeps.read _) fun writable => ?_
  cases writable
  · exact Keeps.throw _
  · exact Keeps.pure _

/-- The transaction of a collection throws nothing, so that nothing of it is taken back. -/
theorem collect_idle (keep : List JsString) : Keeps Idle (collect keep) := by
  refine Keeps.bind (requireWritable_idle _) fun _ => Keeps.bind (Keeps.lift _) fun kept => ?_
  refine Keeps.bind (fun s => ?_) fun removed => Keeps.bind (forget_idle removed) fun _ => Keeps.pure _
  have hrows := removeRows_idle (kept.map DaslCid.text) s.tables.objects s
  obtain ⟨removed, s', hrun⟩ := removeRows_runs (kept.map DaslCid.text) s.tables.objects s
  rw [hrun] at hrows
  rw [Effect.atomically, read_bind, hrun]
  exact hrows

end SqliteObjectStore

namespace SqlitePreparation

open SqliteObjectStore

variable {p p' : Preparing} {may may' : Nat → Prop}

instance {R : SqliteObjectStore → SqliteObjectStore → Prop} [IsTrans SqliteObjectStore R] :
    IsTrans Preparing (Store R) := ⟨fun _ _ _ h h' => IsTrans.trans (r := R) _ _ _ h h'⟩

/-- What is accepted is touched, and clean once all is. -/
theorem acceptAll_drops (staged : List Staged.Object) :
    Keeps (Store (Drops (· ∈ staged.map Staged.Object.token))) (acceptAll staged) := by
  induction staged with
  | nil => exact Keeps.pure _
  | cons object rest ih =>
      have hobject : Keeps (Drops (· ∈ (object :: rest).map Staged.Object.token)) (accept object) :=
        drops_mono (accept_drops object) fun token h => h ▸ List.mem_cons_self
      have hrest : Keeps (Store (Drops (· ∈ (object :: rest).map Staged.Object.token))) (acceptAll rest) :=
        fun p => ⟨(ih p).toTouches.mono fun token h => List.mem_cons_of_mem _ h, (ih p).fewer⟩
      refine Keeps.bind (onStore_keeps hobject) fun _ => ?_
      exact Keeps.bind (update_keeps _) fun _ => Keeps.bind hrest fun _ => Keeps.pure _

theorem acceptAll_clean {staged : List Staged.Object} {accepted : List (JsString × Acceptance)}
    (h : acceptAll staged p = (.ok accepted, p')) :
    ∀ object ∈ staged, p'.store.Clean object.token := by
  induction staged generalizing p accepted with
  | nil => exact fun _ h => absurd h List.not_mem_nil
  | cons object rest ih =>
      rw [acceptAll] at h
      obtain ⟨acceptance, q, haccept, h⟩ := bind_ok h
      obtain ⟨hstore, -⟩ := onStore_run haccept
      rw [note, update, change_bind] at h
      obtain ⟨rest', q', hrest, h⟩ := bind_ok h
      cases h
      refine List.forall_mem_cons.mpr ⟨?_, ih hrest⟩
      by_cases hin : object.token ∈ rest.map Staged.Object.token
      · obtain ⟨other, hother, heq⟩ := List.mem_map.mp hin
        exact heq ▸ ih hrest other hother
      · exact ((acceptAll_drops rest).run hrest).toTouches.clean hin (accept_clean hstore)

theorem dropAll_touches (staged : List Staged.Object) :
    Keeps (Store (Touches (· ∈ staged.map Staged.Object.token))) (dropAll staged) := by
  induction staged with
  | nil => exact Keeps.pure _
  | cons object rest ih =>
      have hobject : Keeps (Touches (· ∈ (object :: rest).map Staged.Object.token)) (drop object.token) :=
        keeps_mono (drop_touches object.token) fun token h => h ▸ List.mem_cons_self
      refine Keeps.bind (onStore_keeps hobject) fun _ p => ?_
      exact (ih p).mono fun token h => List.mem_cons_of_mem _ h

theorem dropAll_clean (staged : List Staged.Object) (p : Preparing) :
    ∀ object ∈ staged, (dropAll staged p).2.store.Clean object.token := by
  induction staged generalizing p with
  | nil => exact fun _ h => absurd h List.not_mem_nil
  | cons object rest ih =>
      have hrun : onStore (drop object.token) p =
          (.ok (), { p with store := (drop object.token p.store).2 }) := rfl
      rw [dropAll, bind_run hrun]
      refine List.forall_mem_cons.mpr ⟨?_, ih _⟩
      by_cases hin : object.token ∈ rest.map Staged.Object.token
      · obtain ⟨other, hother, heq⟩ := List.mem_map.mp hin
        exact heq ▸ ih _ other hother
      · exact Touches.clean (dropAll_touches rest _) hin (drop_clean object.token p.store)

/-! ## What a preparation does -/

/-- What is said of a preparation here is the same of both. -/
structure Alike (prepared prepared' : SqlitePreparation) : Prop where
  staged : prepared'.staged = prepared.staged
  reading : prepared'.reading = prepared.reading
  phase : prepared'.phase = prepared.phase
  forgives : prepared'.forgives = prepared.forgives

theorem Alike.refl (prepared : SqlitePreparation) : Alike prepared prepared := ⟨rfl, rfl, rfl, rfl⟩

/-- A put is not taken in, or it begins under a new token. -/
structure Begins (p p' : Preparing) (put : SqliteObjectStore.Put) : Prop where
  staging : p.prepared.phase = .staging
  token : put.token = p.store.tokens + 1
  store : p'.store = { p.store with tokens := p.store.tokens + 1 }
  prepared : p'.prepared = { p.prepared with reading := p.prepared.reading + 1 }

theorem admit_cases (what : JsString) (p : Preparing) :
    (∃ e, admit_ what true p = (.error e, p)) ∨
      (p.prepared.phase = .staging ∧ admit_ what true p = (.ok (), p)) := by
  rw [admit_, read_bind]
  cases hphase : p.prepared.phase with
  | staging => exact .inr ⟨rfl, rfl⟩
  | published => exact .inl ⟨_, rfl⟩
  | ended => exact .inl ⟨_, rfl⟩

theorem requireWritable_cases (what : JsString) (p : Preparing) :
    (∃ e, onStore (requireWritable what) p = (.error e, p)) ∨ onStore (requireWritable what) p = (.ok (), p) := by
  rw [onStore, requireWritable, read_bind]
  cases p.store.writable with
  | true => exact .inr rfl
  | false => exact .inl ⟨_, rfl⟩

theorem putRaw_cases (p : Preparing) : (∃ e, putRaw p = (.error e, p)) ∨
    ∃ put p', putRaw p = (.ok put, p') ∧ Begins p p' put := by
  rw [putRaw]
  rcases admit_cases (Json.lit "putRaw") p with ⟨e, hrun⟩ | ⟨hphase, hrun⟩
  · exact .inl ⟨e, Effect.bind_throw hrun⟩
  rw [bind_run hrun]
  rcases requireWritable_cases (Json.lit "putRaw") p with ⟨e, hrun⟩ | hrun
  · exact .inl ⟨e, Effect.bind_throw hrun⟩
  rw [bind_run hrun]
  exact .inr ⟨_, _, rfl, hphase, rfl, rfl, rfl⟩

theorem putObject_cases (cid : JsString) (p : Preparing) : (∃ e, putObject cid p = (.error e, p)) ∨
    ∃ put p', putObject cid p = (.ok put, p') ∧ Begins p p' put := by
  rw [putObject]
  rcases admit_cases (Json.lit "putObject") p with ⟨e, hrun⟩ | ⟨hphase, hrun⟩
  · exact .inl ⟨e, Effect.bind_throw hrun⟩
  rw [bind_run hrun]
  cases rawCidOf cid with
  | error e => exact .inl ⟨e, Effect.lift_bind_error _ _ _⟩
  | ok want =>
      rw [lift_bind_ok]
      rcases requireWritable_cases (Json.lit "putObject") p with ⟨e, hrun⟩ | hrun
      · exact .inl ⟨e, Effect.bind_throw hrun⟩
      rw [bind_run hrun]
      exact .inr ⟨_, _, rfl, hphase, rfl, rfl, rfl⟩

/-- What is staged of the CID before, if anything. -/
def held (prepared : SqlitePreparation) (object : Staged.Object) : Option Staged.Object :=
  prepared.staged.get? object.cid.text

def holding (prepared : SqlitePreparation) (object : Staged.Object) : SqlitePreparation :=
  { prepared with staged := prepared.staged.set object.cid.text object }

theorem hold_run (object : Staged.Object) (p : Preparing) : (hold object p).2 =
    ⟨match p.prepared.held object with
      | none => p.store
      | some before => (drop before.token p.store).2,
      p.prepared.holding object⟩ := by
  rw [hold, read_bind, held]
  cases p.prepared.staged.get? object.cid.text <;> rfl

theorem has_keeps (cid : JsString) (p : Preparing) :
    (has cid p).2.prepared = p.prepared ∧ Idle p.store (has cid p).2.store := by
  have hkeeps : Keeps (fun p p' : Preparing => p'.prepared = p.prepared) (has cid) := by
    have : Std.Refl fun p p' : Preparing => p'.prepared = p.prepared := ⟨fun _ => rfl⟩
    have : IsTrans Preparing fun p p' => p'.prepared = p.prepared := ⟨fun _ _ _ h h' => h'.trans h⟩
    refine Keeps.bind (Keeps.bind (Keeps.read _) fun _ => Keeps.lift _) fun _ => ?_
    refine Keeps.bind (Keeps.lift _) fun _ => Keeps.bind (Keeps.read _) fun staged => ?_
    split
    · exact Keeps.pure _
    · exact fun _ => rfl
  have hidle : Keeps (Store Idle) (has cid) := by
    refine Keeps.bind (admit_keeps _ _) fun _ => Keeps.bind (Keeps.lift _) fun _ => ?_
    refine Keeps.bind (Keeps.read _) fun staged => ?_
    split
    · exact Keeps.pure _
    · exact onStore_keeps (Keeps.bind (sound_idle cid) fun _ => Keeps.pure _)
  exact ⟨hkeeps p, hidle p⟩

theorem reuse_keeps (cid : JsString) (p : Preparing) :
    (reuse cid p).2.store = p.store ∧ Alike p.prepared (reuse cid p).2.prepared := by
  rw [reuse]
  rcases admit_cases (Json.lit "reuse") p with ⟨e, hrun⟩ | ⟨-, hrun⟩
  · rw [Effect.bind_throw hrun]
    exact ⟨rfl, .refl _⟩
  rw [bind_run hrun]
  cases rawCidOf cid with
  | error e =>
      rw [Effect.lift_bind_error]
      exact ⟨rfl, .refl _⟩
  | ok parsed =>
      rw [lift_bind_ok]
      exact ⟨rfl, rfl, rfl, rfl, rfl⟩

/-! ## What a publication does -/

/-- A publication has begun: the preparation publishes no more, and takes no put in. -/
structure Publishing (p p' : Preparing) : Prop where
  staging : p.prepared.phase = .staging
  settled : p.prepared.reading = 0
  published : Alike { p.prepared with phase := .published } p'.prepared

theorem acceptAll_alike (staged : List Staged.Object) :
    Keeps (fun p p' : Preparing => Alike p.prepared p'.prepared) (acceptAll staged) := by
  have : Std.Refl fun p p' : Preparing => Alike p.prepared p'.prepared := ⟨fun _ => .refl _⟩
  have : IsTrans Preparing fun p p' => Alike p.prepared p'.prepared :=
    ⟨fun _ _ _ h h' => ⟨h'.staged.trans h.staged, h'.reading.trans h.reading, h'.phase.trans h.phase,
      h'.forgives.trans h.forgives⟩⟩
  induction staged with
  | nil => exact Keeps.pure _
  | cons object rest ih =>
      refine Keeps.bind (fun _ => .refl _) fun _ => ?_
      exact Keeps.bind (Keeps.change fun _ => ⟨rfl, rfl, rfl, rfl⟩) fun _ => Keeps.bind ih fun _ => Keeps.pure _

theorem checkAll_run (cids : List JsString) (p : Preparing) : (checkAll cids p).2 = p := by
  have : Std.Refl fun p p' : Preparing => p' = p := ⟨fun _ => rfl⟩
  have : IsTrans Preparing fun p p' => p' = p := ⟨fun _ _ _ h h' => h'.trans h⟩
  have hkeeps : Keeps (fun p p' : Preparing => p' = p) (checkAll cids) := by
    induction cids with
    | nil => exact Keeps.pure _
    | cons cid rest ih =>
        refine Keeps.bind (Keeps.bind (Keeps.read _) fun damaged => ?_) fun _ => ih
        split
        · exact Keeps.throw _
        · exact Keeps.pure _
  exact hkeeps p

/-- The tokens a preparation stages under. -/
def tokens (prepared : SqlitePreparation) : List Nat := prepared.staged.values.map Staged.Object.token

/-- A publication is refused and nothing is done; or it has begun, and only what is staged is
touched, which is clean where it does not throw. -/
theorem publish_cases (p : Preparing) : (∃ e, publish p = (.error e, p)) ∨
    ∃ result p', publish p = (result, p') ∧ Publishing p p' ∧
      Drops (· ∈ p.prepared.tokens) p.store p'.store ∧
      ∀ accepted, result = .ok accepted → ∀ token ∈ p.prepared.tokens, p'.store.Clean token := by
  rw [publish]
  rcases admit_cases (Json.lit "publish") p with ⟨e, hrun⟩ | ⟨hphase, hrun⟩
  · exact .inl ⟨e, Effect.bind_throw hrun⟩
  rw [bind_run hrun, read_bind, stillReading]
  split
  · exact .inl ⟨_, Effect.lift_bind_error _ _ _⟩
  · next hsettled =>
      have hsettled := Nat.eq_zero_of_not_pos hsettled
      rw [lift_bind_ok, update, change_bind]
      refine .inr ?_
      generalize hbegun : ({ p with prepared := { p.prepared with phase := .published } } : Preparing) = begun
      have hpublishing : Publishing p begun := ⟨hphase, hsettled, hbegun ▸ .refl _⟩
      have hstore : begun.store = p.store := hbegun ▸ rfl
      have hcheck := checkAll_run (p.prepared.reused.filter fun cid => !p.prepared.staged.has cid) begun
      rcases hrun : checkAll (p.prepared.reused.filter fun cid => !p.prepared.staged.has cid) begun
        with ⟨e | u, q⟩
      · rw [hrun] at hcheck
        cases hcheck
        exact ⟨_, _, Effect.bind_throw hrun, hpublishing, hstore ▸ Std.Refl.refl _, fun _ h => by cases h⟩
      · rw [hrun] at hcheck
        cases hcheck
        rw [bind_run hrun]
        have halike := acceptAll_alike p.prepared.staged.values q
        have hdrops := acceptAll_drops p.prepared.staged.values q
        rcases hrun : acceptAll p.prepared.staged.values q with ⟨result, p'⟩
        rw [hrun] at halike hdrops
        have hpublished := hpublishing.published
        refine ⟨_, _, rfl, ⟨hphase, hsettled, halike.staged.trans hpublished.staged,
          halike.reading.trans hpublished.reading, halike.phase.trans hpublished.phase,
          halike.forgives.trans hpublished.forgives⟩, hstore ▸ hdrops, fun accepted hok token htoken => ?_⟩
        obtain ⟨object, hobject, rfl⟩ := List.mem_map.mp htoken
        exact acceptAll_clean (hok ▸ hrun) object hobject

/-- A transaction is refused or throws before it publishes, and nothing is done; or it lands, and
what was staged is clean; or it is taken back: the rows are as they were, and no token is counted
that was not. -/
theorem transaction_staging {α : Type} (more : Except ObjectError α) (p : Preparing) :
    (∃ e, transaction more p = (.error e, p)) ∨
    (∃ landed p', transaction more p = (.ok landed, p') ∧ Publishing p p' ∧
      Drops (· ∈ p.prepared.tokens) p.store p'.store ∧ ∀ token ∈ p.prepared.tokens, p'.store.Clean token) ∨
    ∃ e p' store, transaction more p = (.error e, p') ∧ Publishing p p' ∧
      Drops (· ∈ p.prepared.tokens) p.store store ∧ p'.store = rollback p.store store := by
  rw [transaction, Effect.atomically]
  rcases publish_cases p with ⟨e, hrun⟩ | ⟨_ | accepted, q, hrun, hpublishing, hdrops, hclean⟩
  · rw [Effect.bind_throw hrun]
    exact .inl ⟨e, rfl⟩
  · rw [Effect.bind_throw hrun]
    exact .inr (.inr ⟨_, _, q.store, rfl, ⟨hpublishing.staging, hpublishing.settled, hpublishing.published⟩,
      hdrops, rfl⟩)
  · rw [bind_run hrun]
    cases more with
    | error e =>
        rw [Effect.lift_bind_error]
        exact .inr (.inr ⟨_, _, q.store, rfl, ⟨hpublishing.staging, hpublishing.settled, hpublishing.published⟩,
          hdrops, rfl⟩)
    | ok a =>
        rw [lift_bind_ok]
        exact .inr (.inl ⟨_, _, rfl, hpublishing, hdrops, hclean accepted rfl⟩)

/-! ## What an end does -/

theorem forgiveAll_run (cids : List JsString) (p : Preparing) :
    ∃ store, forgiveAll cids p = (.ok (), { p with store }) ∧ Idle p.store store := by
  induction cids generalizing p with
  | nil => exact ⟨p.store, rfl, Std.Refl.refl _⟩
  | cons cid rest ih =>
      rw [forgiveAll, change_bind]
      obtain ⟨store, hrun, hidle⟩ :=
        ih { p with store := { p.store with damage := p.store.damage.erase cid } }
      have herase : Idle p.store { p.store with damage := p.store.damage.erase cid } :=
        touches_of_eq rfl rfl rfl rfl rfl
      exact ⟨store, hrun, IsTrans.trans _ _ store herase hidle⟩

theorem dropAll_run (staged : List Staged.Object) (p : Preparing) :
    ∃ store, dropAll staged p = (.ok (), { p with store }) := by
  induction staged generalizing p with
  | nil => exact ⟨p.store, rfl⟩
  | cons object rest ih => exact ih { p with store := (drop object.token p.store).2 }

/-- A preparation whose commit is over. -/
def leaving (prepared : SqlitePreparation) (resolved : Bool) : SqlitePreparation :=
  { prepared with phase := .ended, forgives := resolved && prepared.phase == .published }

/-- A preparation that holds nothing. -/
def cleared (prepared : SqlitePreparation) : SqlitePreparation :=
  { prepared with staged := .empty, reused := [], repaired := [] }

/-- A preparation that ends forgives what it repaired, or drops what it staged. -/
theorem finishUp_cases (p : Preparing) : ∃ store, finishUp p = (.ok (), ⟨store, p.prepared.cleared⟩) ∧
    (p.prepared.forgives = true → Idle p.store store) ∧
    (p.prepared.forgives = false → Touches (· ∈ p.prepared.tokens) p.store store ∧
      ∀ token ∈ p.prepared.tokens, store.Clean token) := by
  rw [finishUp, read_bind]
  cases hforgives : p.prepared.forgives with
  | true =>
      obtain ⟨store, hrun, hidle⟩ := forgiveAll_run p.prepared.repaired p
      rw [if_pos rfl, bind_run hrun]
      exact ⟨store, rfl, fun _ => hidle, fun h => by cases h⟩
  | false =>
      obtain ⟨store, hrun⟩ := dropAll_run p.prepared.staged.values p
      have htouches := (dropAll_touches p.prepared.staged.values).run hrun
      have hclean := dropAll_clean p.prepared.staged.values p
      rw [hrun] at hclean
      rw [if_neg Bool.false_ne_true, bind_run hrun]
      refine ⟨store, rfl, fun h => (by cases h), fun _ => ⟨htouches, fun token htoken => ?_⟩⟩
      obtain ⟨object, hobject, rfl⟩ := List.mem_map.mp htoken
      exact hclean object hobject

end SqlitePreparation

end Estoc.EventStore
