import Estoc.Agent.Receiver

/-!
# The receiver's books

Each exit of an attempt lets go, remembers or keeps, and the counters are adjusted as it
does. What is kept adds up after every step: the steps of one delivery never overlap, so
nothing else ends a delivery while it is attempted, and what `close` let go stays let go
because every step that could keep something looks whether the receiver is closed in the
same breath.
-/

set_option linter.unusedSectionVars false

namespace Estoc.Agent.Receive

open Json (lit)
open Utf16 (JsString encodeUtf8)
open Serially (Queue Call)
open Turns (Phase)

variable {Fold Opened Resolution : Type} {O : Options Fold Opened Resolution} {kept : Kept Fold}
  {key : Key} {task : Task} {goes : Goes Fold Opened Resolution}

/-- What is kept adds up. -/
structure Exact (O : Options Fold Opened Resolution) (kept : Kept Fold) : Prop where
  waiting : ∀ key ∈ kept.held.keys, key ∈ kept.waits.keys
  owner : ∀ key held, kept.held.get? key = some held → deliveryKey O held.delivery = some key
  lengths : ∀ key held, kept.held.get? key = some held →
    held.bytes = (encodeUtf8 held.delivery.packed).length
  counted : kept.heldBytes = (kept.held.values.map HeldDelivery.bytes).sum
  room : kept.heldBytes ≤ O.maxHeldBytes
  waits : kept.waits.size ≤ O.maxWaiting
  ended : kept.ended.size ≤ ENDED_KEPT
  apart : ∀ key ∈ kept.waits.keys, key ∉ kept.ended.keys
  closed : kept.closed = true → kept.waits = OMap.empty ∧ kept.held = OMap.empty ∧
    kept.heldBytes = 0 ∧ kept.ended = OMap.empty

/-! ## Letting go -/

theorem letGo_eq (kept : Kept Fold) (key : Key) : kept.letGo key = { kept with
    waits := kept.waits.erase key
    held := kept.held.erase key
    heldBytes := kept.heldBytes - ((kept.held.get? key).map HeldDelivery.bytes).getD 0 } := by
  rw [Kept.letGo, Kept.release, Kept.stopWaiting]
  cases hheld : kept.held.get? key with
  | none =>
      rw [OMap.erase_of_notMem (OMap.get?_eq_none.mp hheld)]
      simp
  | some held => rfl

theorem exact_letGo (h : Exact O kept) : Exact O (kept.letGo key) := by
  rw [letGo_eq]
  have hsum : kept.heldBytes - ((kept.held.get? key).map HeldDelivery.bytes).getD 0 =
      ((kept.held.erase key).values.map HeldDelivery.bytes).sum := by
    rw [h.counted]
    cases hheld : kept.held.get? key with
    | none =>
        rw [OMap.erase_of_notMem (OMap.get?_eq_none.mp hheld)]
        simp
    | some held =>
        have hperm := (OMap.perm_values_erase hheld).map HeldDelivery.bytes
        rw [hperm.sum_nat]
        simp
  refine ⟨?_, ?_, ?_, hsum, ?_, ?_, h.ended, ?_, ?_⟩
  · intro other hother
    obtain ⟨hmem, hne⟩ := OMap.mem_keys_erase.mp hother
    exact OMap.mem_keys_erase.mpr ⟨h.waiting other hmem, hne⟩
  · intro other held hget
    rw [OMap.get?_erase] at hget
    split at hget
    · cases hget
    · exact h.owner other held hget
  · intro other held hget
    rw [OMap.get?_erase] at hget
    split at hget
    · cases hget
    · exact h.lengths other held hget
  · have := h.room
    show kept.heldBytes - _ ≤ _
    omega
  · exact Nat.le_trans (OMap.size_erase_le _ _) h.waits
  · exact fun other hother => h.apart other (OMap.mem_keys_erase.mp hother).1
  · intro hclosed
    obtain ⟨hwaits, hheld, hbytes, hended⟩ := h.closed hclosed
    refine ⟨?_, ?_, ?_, hended⟩
    · rw [hwaits]; rfl
    · rw [hheld]; rfl
    · rw [hbytes, hheld]; rfl

/-! ## Keeping -/

/-- What holding bytes leaves as it is. -/
structure HoldSame (kept held : Kept Fold) : Prop where
  waits : held.waits = kept.waits
  nextWait : held.nextWait = kept.nextWait
  ended : held.ended = kept.ended
  closed : held.closed = kept.closed

theorem hold_same (O : Options Fold Opened Resolution) (kept : Kept Fold) (key : Key)
    (delivery : Delivery) : HoldSame kept (kept.hold O key delivery) := by
  rw [Kept.hold]
  split
  · exact ⟨rfl, rfl, rfl, rfl⟩
  · split <;> exact ⟨rfl, rfl, rfl, rfl⟩

/-- Bytes are held for a delivery that waits. -/
theorem exact_hold {delivery : Delivery} (h : Exact O kept) (hkey : deliveryKey O delivery = some key)
    (hwaits : key ∈ kept.waits.keys) : Exact O (kept.hold O key delivery) := by
  rw [Kept.hold]
  split
  · exact h
  · next hnot =>
      split
      · exact h
      · next hfits =>
          have hnone : key ∉ kept.held.keys :=
            OMap.has_eq_false.mp (Bool.eq_false_of_not_eq_true hnot)
          refine ⟨?_, ?_, ?_, ?_, ?_, h.waits, h.ended, h.apart, ?_⟩
          · intro other hother
            rcases OMap.mem_keys_set.mp hother with hother | rfl
            · exact h.waiting other hother
            · exact hwaits
          · intro other held hget
            rw [OMap.get?_set] at hget
            split at hget
            · next heq =>
                cases hget
                rw [heq]
                exact hkey
            · exact h.owner other held hget
          · intro other held hget
            rw [OMap.get?_set] at hget
            split at hget
            · cases hget
              rfl
            · exact h.lengths other held hget
          · show kept.heldBytes + _ = _
            rw [OMap.values_set hnone, h.counted, List.map_append, List.sum_append]
            simp
          · show kept.heldBytes + _ ≤ _
            omega
          · intro hclosed
            rw [(h.closed hclosed).1] at hwaits
            cases hwaits

/-- The bytes may be held before the delivery waits or after. -/
theorem hold_waits (kept : Kept Fold) (key : Key) (delivery : Delivery) (waits : OMap Key (Wait Fold))
    (nextWait : Nat) : { kept.hold O key delivery with waits := waits, nextWait := nextWait } =
      { kept with waits := waits, nextWait := nextWait }.hold O key delivery := by
  rw [Kept.hold, Kept.hold]
  split
  · rfl
  · split
    · rfl
    · rfl

theorem exact_wait {delivery : Delivery} {reason seen : JsString} {watch : Watch Fold}
    (h : Exact O kept) (hkey : deliveryKey O delivery = some key) (hopen : kept.closed = false)
    (hroom : key ∈ kept.waits.keys ∨ kept.waits.size < O.maxWaiting)
    (hfresh : key ∉ kept.ended.keys) : Exact O (kept.wait O key delivery reason watch seen) := by
  have hsame := hold_same O kept key delivery
  rw [Kept.wait, hsame.waits, hsame.nextWait, hold_waits]
  refine exact_hold ⟨?_, h.owner, h.lengths, h.counted, h.room, ?_, h.ended, ?_, ?_⟩ hkey
    (OMap.mem_keys_set.mpr (.inr rfl))
  · exact fun other hother => OMap.mem_keys_set.mpr (.inl (h.waiting other hother))
  · show (kept.waits.set key _).size ≤ _
    rw [OMap.size_set]
    split
    · exact h.waits
    · next hnot => exact hroom.resolve_left hnot
  · intro other hother
    rcases OMap.mem_keys_set.mp hother with hother | rfl
    · exact h.apart other hother
    · exact hfresh
  · intro hclosed
    rw [hopen] at hclosed
    cases hclosed

/-! ## Remembering -/

theorem evict_spec (keys : List Key) (ended : OMap Key Ended) :
    let left := keys.foldl (fun ended oldest =>
      if ended.size ≤ ENDED_KEPT then ended else ended.erase oldest) ended
    (∀ key ∈ left.keys, key ∈ ended.keys) ∧
      (left.size ≤ ENDED_KEPT ∨ ∀ key ∈ left.keys, key ∉ keys) := by
  induction keys generalizing ended with
  | nil => exact ⟨fun _ h => h, .inr fun _ _ => List.not_mem_nil⟩
  | cons oldest rest ih =>
      rw [List.foldl_cons]
      split
      · next hfits =>
          obtain ⟨hsub, -⟩ := ih ended
          refine ⟨hsub, .inl ?_⟩
          rw [← OMap.length_keys]
          exact (List.subperm_of_subset (OMap.nodup_keys _) hsub).length_le.trans
            (OMap.length_keys ended ▸ hfits)
      · obtain ⟨hsub, hall⟩ := ih (ended.erase oldest)
        refine ⟨fun key hkey => (OMap.mem_keys_erase.mp (hsub key hkey)).1, hall.imp_right ?_⟩
        intro hnone key hkey hmem
        rcases List.mem_cons.mp hmem with rfl | hmem
        · exact (OMap.mem_keys_erase.mp (hsub key hkey)).2 rfl
        · exact hnone key hkey hmem

theorem mem_keys_evict {ended : OMap Key Ended} {other : Key} (h : other ∈ (evict ended).keys) :
    other ∈ ended.keys := (evict_spec ended.keys ended).1 other h

theorem size_evict (ended : OMap Key Ended) : (evict ended).size ≤ ENDED_KEPT := by
  obtain ⟨hsub, hfits | hnone⟩ := evict_spec ended.keys ended
  · exact hfits
  · have hempty : (evict ended).keys = [] :=
      List.eq_nil_iff_forall_not_mem.mpr fun key hkey => hnone key hkey (hsub key hkey)
    rw [← OMap.length_keys, hempty]
    exact Nat.zero_le _

theorem mem_ended_endWith {ended : Ended} {other : Key}
    (h : other ∈ (kept.endWith key ended).ended.keys) : other ∈ kept.ended.keys ∨ other = key := by
  rw [Kept.endWith] at h
  split at h
  · rw [letGo_eq] at h
    exact .inl h
  · rcases OMap.mem_keys_set.mp (mem_keys_evict h) with hmem | rfl
    · rw [letGo_eq] at hmem
      exact .inl (OMap.mem_keys_erase.mp hmem).1
    · exact .inr rfl

theorem exact_endWith {ended : Ended} (h : Exact O kept) : Exact O (kept.endWith key ended) := by
  have hlet : Exact O (kept.letGo key) := exact_letGo h
  have hgone : key ∉ (kept.letGo key).waits.keys := by
    rw [letGo_eq]
    exact fun hmem => (OMap.mem_keys_erase.mp hmem).2 rfl
  rw [Kept.endWith]
  split
  · exact hlet
  · next hopen =>
      refine ⟨hlet.waiting, hlet.owner, hlet.lengths, hlet.counted, hlet.room, hlet.waits,
        size_evict _, ?_, fun hclosed => absurd hclosed hopen⟩
      intro other hother hmem
      rcases OMap.mem_keys_set.mp (mem_keys_evict hmem) with hmem | rfl
      · exact hlet.apart other hother (OMap.mem_keys_erase.mp hmem).1
      · exact hgone hother

theorem exact_discard {source : Source} {reason : JsString} (h : Exact O kept) :
    Exact O (kept.discard source reason) := by
  rw [Kept.discard]
  split
  · exact h
  · exact ⟨h.waiting, h.owner, h.lengths, h.counted, h.room, h.waits, h.ended, h.apart, h.closed⟩

theorem exact_close (h : Exact O kept) : Exact O kept.close := by
  rw [Kept.close]
  split
  · exact h
  · refine ⟨?_, ?_, ?_, rfl, ?_, Nat.zero_le _, Nat.zero_le _, ?_, fun _ => ⟨rfl, rfl, rfl, rfl⟩⟩
    · exact fun _ hother => by cases hother
    · exact fun _ _ hget => by cases hget
    · exact fun _ _ hget => by cases hget
    · exact Int.natCast_nonneg _
    · exact fun _ hother => by cases hother

/-- What is forgotten of how deliveries ended unsettles nothing. -/
theorem exact_forget {ended : OMap Key Ended} (h : Exact O kept)
    (hsub : ∀ key ∈ ended.keys, key ∈ kept.ended.keys) (hsize : ended.size ≤ kept.ended.size) :
    Exact O { kept with ended := ended } := by
  refine ⟨h.waiting, h.owner, h.lengths, h.counted, h.room, h.waits, hsize.trans h.ended,
    fun key hkey hmem => h.apart key hkey (hsub key hmem), fun hclosed => ?_⟩
  obtain ⟨hwaits, hheld, hbytes, hended⟩ := h.closed hclosed
  refine ⟨hwaits, hheld, hbytes, OMap.ext_entries (List.eq_nil_of_length_eq_zero ?_)⟩
  rw [hended] at hsize
  exact Nat.le_zero.mp hsize

/-! ## One step of a turn -/

/-- The delivery was recorded by the receipt or found terminal. -/
def Known (told : List Told) (key : Key) : Prop :=
  .terminal key ∈ told ∨ ∃ cid, .recorded key cid ∈ told

theorem Known.append {told : List Told} (h : Known told key) (more : List Told) :
    Known (told ++ more) key := by
  rcases h with h | ⟨cid, h⟩
  · exact .inl (List.mem_append_left _ h)
  · exact .inr ⟨cid, List.mem_append_left _ h⟩

theorem Known.told {told new : List Told} (h : Known new key) : Known (told ++ new) key := by
  rcases h with h | ⟨cid, h⟩
  · exact .inl (List.mem_append_right _ h)
  · exact .inr ⟨cid, List.mem_append_right _ h⟩

def Task.Reads (task : Task) : Prop := ∀ source why, task ≠ .unreadable source why

/-- Where a turn may stand: what is attempted is not remembered as ended, and what is told of
as ended has ended. -/
inductive Stands (O : Options Fold Opened Resolution) (ended : OMap Key Ended) (told : List Told)
    (key : Key) (task : Task) : Stage Fold Opened Resolution → Prop where
  | asked : (∀ delivery handle, task = .enter delivery handle → deliveryKey O delivery = some key) →
      Stands O ended told key task .asked
  | attempting {delivery : Delivery} {point : Point Fold Opened Resolution} :
      deliveryKey O delivery = some key → key ∉ ended.keys → task.Reads →
      Stands O ended told key task (.attempting delivery point)
  | left {source : Source} {reason : JsString} : task.Reads →
      Stands O ended told key task (.telling source (.deferred reason))
  | ended {source : Source} {how : Ended} : Known told key →
      Stands O ended told key task (.telling source (.ended how))
  | acknowledging {received : Received} : Known told key →
      Stands O ended told key task (.acknowledging received)
  | over {outcome : Outcome} : Stands O ended told key task (.over outcome)

/-- What a step of a turn does, when `before` was told before it. -/
structure Fair (O : Options Fold Opened Resolution) (kept : Kept Fold) (key : Key) (task : Task)
    (before : List Told) (goes : Goes Fold Opened Resolution) : Prop where
  exact : Exact O goes.kept
  closed : goes.kept.closed = kept.closed
  ended : ∀ other ∈ goes.kept.ended.keys,
    other ∈ kept.ended.keys ∨ other = key ∧ Known (before ++ goes.told) key
  stands : Stands O goes.kept.ended (before ++ goes.told) key task goes.stage
  began : goes.stage.phase ≠ .waiting
  single : goes.told.length ≤ 1
  fates : ∀ other, .fate other .acked ∈ goes.told → Known before other
  opening : ∀ other, .opening other ∈ goes.told → other ∉ kept.ended.keys
  receipt : ∀ other, .receipt other ∈ goes.told → kept.closed = false

variable {before : List Told}

theorem letGo_ended (kept : Kept Fold) (key : Key) : (kept.letGo key).ended = kept.ended ∧
    (kept.letGo key).closed = kept.closed := by
  rw [letGo_eq]
  exact ⟨rfl, rfl⟩

/-- A step that tells nothing and ends nothing. -/
theorem fair_quiet {kept' : Kept Fold} {stage : Stage Fold Opened Resolution} (h : Exact O kept')
    (hclosed : kept'.closed = kept.closed) (hended : kept'.ended = kept.ended)
    (hstands : Stands O kept.ended before key task stage) (hbegan : stage.phase ≠ .waiting) :
    Fair O kept key task before ⟨kept', stage, []⟩ where
  exact := h
  closed := hclosed
  ended _ hother := .inl (hended ▸ hother)
  stands := by
    rw [List.append_nil]
    exact hended ▸ hstands
  began := hbegan
  single := Nat.zero_le _
  fates _ h := by cases h
  opening _ h := by cases h
  receipt _ h := by cases h

theorem fair_leave {source : Source} {reason : JsString} (h : Exact O kept) (hreads : task.Reads) :
    Fair O kept key task before (leave kept key source reason) :=
  fair_quiet (exact_letGo h) (letGo_ended kept key).2 (letGo_ended kept key).1 (.left hreads)
    fun h => by cases h

theorem fair_attempt {delivery : Delivery} (h : Exact O kept) (hkey : deliveryKey O delivery = some key)
    (hfresh : key ∉ kept.ended.keys) (hreads : task.Reads) :
    Fair O kept key task before (attempt kept delivery) :=
  fair_quiet h rfl rfl (.attempting hkey hfresh hreads) fun h => by cases h

theorem closed_endWith (kept : Kept Fold) (key : Key) (ended : Ended) :
    (kept.endWith key ended).closed = kept.closed := by
  rw [Kept.endWith]
  split
  · exact (letGo_ended kept key).2
  · exact (letGo_ended kept key).2

theorem fair_record {source : Source} {cid : JsString} {live : Option JsString} (h : Exact O kept) :
    Fair O kept key task before (record kept key source cid live) where
  exact := exact_endWith h
  closed := closed_endWith kept key _
  ended _ hother := (mem_ended_endWith hother).imp_right fun heq =>
    ⟨heq, Known.told (.inr ⟨cid, List.mem_singleton_self _⟩)⟩
  stands := .ended (Known.told (.inr ⟨cid, List.mem_singleton_self _⟩))
  began h := by cases h
  single := Nat.le_refl 1
  fates _ h := by cases List.mem_singleton.mp h
  opening _ h := by cases List.mem_singleton.mp h
  receipt _ h := by cases List.mem_singleton.mp h

theorem discard_eq (kept : Kept Fold) (source : Source) (reason : JsString) :
    (kept.discard source reason).ended = kept.ended ∧
      (kept.discard source reason).closed = kept.closed := by
  rw [Kept.discard]
  split
  · exact ⟨rfl, rfl⟩
  · exact ⟨rfl, rfl⟩

theorem fair_finish {source : Source} {reason : JsString} (h : Exact O kept) :
    Fair O kept key task before (finish kept key source reason) where
  exact := exact_discard (exact_endWith h)
  closed := (discard_eq _ _ _).2.trans (closed_endWith kept key _)
  ended _ hother := (mem_ended_endWith ((discard_eq _ _ _).1 ▸ hother)).imp_right fun heq =>
    ⟨heq, Known.told (.inl (List.mem_singleton_self _))⟩
  stands := .ended (Known.told (.inl (List.mem_singleton_self _)))
  began h := by cases h
  single := Nat.le_refl 1
  fates _ h := by cases List.mem_singleton.mp h
  opening _ h := by cases List.mem_singleton.mp h
  receipt _ h := by cases List.mem_singleton.mp h

theorem fair_deferred {delivery : Delivery} {reason seen : JsString} {watch : Watch Fold}
    (h : Exact O kept) (hkey : deliveryKey O delivery = some key) (hfresh : key ∉ kept.ended.keys)
    (hreads : task.Reads) :
    Fair O kept key task before (deferred O kept key delivery reason watch seen) := by
  rw [deferred]
  split
  · exact fair_leave h hreads
  · next hopen =>
      have hopen' := Bool.eq_false_of_not_eq_true hopen
      split
      · exact fair_leave h hreads
      · next hroom =>
          refine fair_quiet (exact_wait h hkey hopen' ?_ hfresh) ?_ ?_ (.left hreads) fun h => by cases h
          · rw [← OMap.has_eq_true]
            by_cases hhas : kept.waits.has key = true
            · exact .inl hhas
            · simp only [hhas, Bool.not_false, Bool.true_and, decide_eq_true_eq] at hroom
              exact .inr (Nat.not_le.mp hroom)
          · exact (hold_same O kept key delivery).closed
          · exact (hold_same O kept key delivery).ended

theorem fair_deferLoop {delivery : Delivery} {observed : Nat} {reason seen : JsString}
    {watch : Watch Fold} (h : Exact O kept) (hkey : deliveryKey O delivery = some key)
    (hfresh : key ∉ kept.ended.keys) (hreads : task.Reads) :
    Fair O kept key task before (deferLoop O kept key delivery observed reason watch seen) := by
  rw [deferLoop]
  split
  · exact fair_quiet h rfl rfl (.attempting hkey hfresh hreads) fun h => by cases h
  · exact fair_deferred h hkey hfresh hreads

theorem fair_settle {kept' : Kept Fold} {outcome : Outcome} (h : Exact O kept')
    (hclosed : kept'.closed = kept.closed)
    (hended : ∀ other ∈ kept'.ended.keys, other ∈ kept.ended.keys)
    (hfates : ∀ other, .fate other .acked ∈ fates key task outcome → Known before other) :
    Fair O kept key task before (settle kept' key task outcome : Goes Fold Opened Resolution) where
  exact := h
  closed := hclosed
  ended _ hother := .inl (hended _ hother)
  stands := .over
  began h := by cases h
  single := by
    show (fates key task outcome).length ≤ 1
    rw [fates.eq_def]
    split <;> simp
  fates := hfates
  opening other h := by
    have h' : Told.opening other ∈ fates key task outcome := h
    rw [fates.eq_def] at h'
    split at h' <;> simp at h'
  receipt other h := by
    have h' : Told.receipt other ∈ fates key task outcome := h
    rw [fates.eq_def] at h'
    split at h' <;> simp at h'

theorem fates_quiet {outcome : Outcome} (h : ∀ received, outcome ≠ .received received) :
    fates key task outcome = [] := by
  rw [fates.eq_def]
  split
  · exact absurd rfl (h _)
  · exact absurd rfl (h _)
  · rfl

/-- A turn that settles with nothing received answers no handle. -/
theorem fair_quits {kept' : Kept Fold} {outcome : Outcome} (h : Exact O kept')
    (hclosed : kept'.closed = kept.closed) (hended : kept'.ended = kept.ended)
    (hquits : ∀ received, outcome ≠ .received received) :
    Fair O kept key task before (settle kept' key task outcome) :=
  fair_settle h hclosed (fun _ hother => hended ▸ hother) fun other hother => by
    rw [fates_quiet hquits] at hother
    cases hother

theorem fair_throws {failure : Failure} (h : Exact O kept) :
    Fair O kept key task before (throws kept key task failure) := by
  rw [throws.eq_def]
  split
  · exact fair_quits h rfl rfl fun _ h => by cases h
  · exact fair_quits h rfl rfl fun _ h => by cases h

/-- A turn for a delivery that reads answers with what became of the delivery. -/
theorem fair_answers {kept' : Kept Fold} {received : Received} (h : Exact O kept')
    (hclosed : kept'.closed = kept.closed)
    (hended : ∀ other ∈ kept'.ended.keys, other ∈ kept.ended.keys)
    (hknown : received.fate = .acked ∨ ¬task.Reads → Known before key) :
    Fair O kept key task before (settle kept' key task (.received received)) := by
  refine fair_settle h hclosed hended fun other hother => ?_
  rw [fates.eq_def] at hother
  split at hother
  · next heq =>
      cases heq
      obtain ⟨rfl, hfate⟩ := Told.fate.inj (List.mem_singleton.mp hother)
      exact hknown (.inl hfate.symm)
  · next heq =>
      cases heq
      obtain ⟨rfl, -⟩ := Told.fate.inj (List.mem_singleton.mp hother)
      exact hknown (.inr fun hreads => hreads _ _ rfl)
  · cases hother

/-! ## Turns begin and go on -/

/-- A wait told that what it waits for changed is still that wait. -/
theorem exact_marked {wait : Wait Fold} (h : Exact O kept) (hwait : kept.waits.get? key = some wait) :
    Exact O { kept with waits := kept.waits.set key { wait with retry := true } } := by
  have hin : key ∈ kept.waits.keys := OMap.mem_keys.mpr ⟨wait, hwait⟩
  have hkeys : (kept.waits.set key { wait with retry := true }).keys = kept.waits.keys := by
    rw [OMap.keys_set, if_pos hin]
  refine ⟨fun other hother => hkeys ▸ h.waiting other hother, h.owner, h.lengths, h.counted, h.room,
    ?_, h.ended, fun other hother => h.apart other (hkeys ▸ hother), fun hclosed => ?_⟩
  · show (kept.waits.set key _).size ≤ _
    rw [OMap.size_set, if_pos hin]
    exact h.waits
  · rw [(h.closed hclosed).1] at hin
    cases hin

theorem fair_retry {wait : Wait Fold} (h : Exact O kept)
    (hwait : kept.waits.get? key = some wait) (hreads : task.Reads) :
    Fair O kept key task before (retry kept key task wait) := by
  have hin : key ∈ kept.waits.keys := OMap.mem_keys.mpr ⟨wait, hwait⟩
  have hlater : Fair O kept key task before
      (retry.later kept key task wait : Goes Fold Opened Resolution) :=
    fair_quits (exact_marked h hwait) rfl rfl fun _ h => by cases h
  rw [retry]
  split
  · next held hheld =>
      split
      · exact hlater
      · exact fair_attempt h (h.owner key held hheld) (h.apart key hin) hreads
  · exact hlater

theorem fair_enter {delivery : Delivery} (h : Exact O kept)
    (hknown : ∀ other ∈ kept.ended.keys, Known before other)
    (hkey : deliveryKey O delivery = some key) (hreads : task.Reads) :
    Fair O kept key task before (enter O kept key task delivery) := by
  rw [enter]
  split
  · exact fair_quits h rfl rfl fun _ h => by cases h
  · split
    · next cid live hended =>
        exact fair_answers h rfl (fun _ h => h) fun _ => hknown key (OMap.mem_keys.mpr ⟨_, hended⟩)
    · next ended _ hended =>
        exact fair_answers h rfl (fun _ h => h) fun _ => hknown key (OMap.mem_keys.mpr ⟨_, hended⟩)
    · next hnone =>
        have hfresh : key ∉ kept.ended.keys := OMap.get?_eq_none.mp hnone
        split
        · next wait hwait =>
            have hin : key ∈ kept.waits.keys := OMap.mem_keys.mpr ⟨wait, hwait⟩
            have hsame := hold_same O kept key delivery
            split
            · exact fair_attempt h hkey hfresh hreads
            · refine fair_answers (exact_hold h hkey hin) hsame.closed
                (fun _ hother => hsame.ended ▸ hother) fun hwhich => ?_
              rcases hwhich with hacked | hnot
              · cases hacked
              · exact absurd hreads hnot
        · exact fair_attempt h hkey hfresh hreads

theorem fair_begin (h : Exact O kept) (hknown : ∀ other ∈ kept.ended.keys, Known before other)
    (hkey : ∀ delivery handle, task = .enter delivery handle → deliveryKey O delivery = some key) :
    Fair O kept key task before (beginTurn O kept key task) := by
  cases task with
  | enter delivery handle => exact fair_enter h hknown (hkey _ _ rfl) fun _ _ h => by cases h
  | unreadable source why =>
      rw [beginTurn]
      split
      · exact fair_quits h rfl rfl fun _ h => by cases h
      · exact fair_finish h
  | recheck serial read =>
      have hreads : (Task.recheck serial read).Reads := fun _ _ h => by cases h
      rw [beginTurn]
      split
      · next wait hwait =>
          split
          · exact fair_quits h rfl rfl fun _ h => by cases h
          · split
            · exact fair_retry h hwait hreads
            · exact fair_leave h hreads
      · exact fair_quits h rfl rfl fun _ h => by cases h

/-- What an attempt comes to past the vault read. -/
theorem fair_scanned {delivery : Delivery} {observed : Nat} {fold : Fold} (h : Exact O kept)
    (hkey : deliveryKey O delivery = some key) (hfresh : key ∉ kept.ended.keys) (hreads : task.Reads) :
    Fair O kept key task before (scanned O kept key delivery observed fold) := by
  rw [scanned]
  split
  · exact fair_finish h
  · split
    · exact fair_finish h
    · exact fair_deferLoop h hkey hfresh hreads
    · exact fair_quiet h rfl rfl (.attempting hkey hfresh hreads) fun h => by cases h

theorem fair_opened {delivery : Delivery} {observed : Nat} {fold : Fold} {did : JsString}
    {proof : Except JsString (Option Resolution)} (h : Exact O kept) (hopen : kept.closed = false)
    (hkey : deliveryKey O delivery = some key) (hfresh : key ∉ kept.ended.keys) (hreads : task.Reads) :
    Fair O kept key task before (opened O kept key delivery observed fold did proof) := by
  have hadmitted : ∀ sender, Fair O kept key task before
      (opened.admitted O kept key delivery observed fold did sender) := by
    intro sender
    rw [opened.admitted]
    split
    · exact fair_finish h
    · exact {
        exact := h
        closed := rfl
        ended := fun _ hother => .inl hother
        stands := .attempting hkey hfresh hreads
        began := fun h => by cases h
        single := Nat.le_refl 1
        fates := fun _ h => by cases List.mem_singleton.mp h
        opening := fun _ h => by cases List.mem_singleton.mp h
        receipt := fun _ _ => hopen }
  rw [opened.eq_def]
  split
  · exact fair_finish h
  · split
    · split
      · exact fair_finish h
      · exact hadmitted _
    · exact hadmitted none

theorem fair_opening {delivery : Delivery} {observed : Nat} {fold : Fold} {did : JsString}
    {resolution : Option Resolution} (h : Exact O kept) (hkey : deliveryKey O delivery = some key)
    (hfresh : key ∉ kept.ended.keys) (hreads : task.Reads) : Fair O kept key task before
      ⟨kept, .attempting delivery (.unpacking observed fold did resolution), [.opening key]⟩ where
  exact := h
  closed := rfl
  ended _ hother := .inl hother
  stands := .attempting hkey hfresh hreads
  began h := by cases h
  single := Nat.le_refl 1
  fates _ h := by cases List.mem_singleton.mp h
  opening other h := by
    cases List.mem_singleton.mp h
    exact hfresh
  receipt _ h := by cases List.mem_singleton.mp h

section
variable {ended : OMap Key Ended}

theorem Stands.of_attempting {delivery : Delivery} {point : Point Fold Opened Resolution}
    (h : Stands O ended before key task (.attempting delivery point)) :
    deliveryKey O delivery = some key ∧ key ∉ ended.keys ∧ task.Reads := by
  cases h with
  | attempting hkey hfresh hreads => exact ⟨hkey, hfresh, hreads⟩

theorem Stands.of_telling {source : Source} {received : Received}
    (h : Stands O ended before key task (.telling source received)) :
    received.fate = .acked ∨ ¬task.Reads → Known before key := by
  cases h with
  | left hreads =>
      rintro (hacked | hnot)
      · cases hacked
      · exact absurd hreads hnot
  | ended hknown => exact fun _ => hknown

theorem Stands.of_acknowledging {received : Received}
    (h : Stands O ended before key task (.acknowledging received)) : Known before key := by
  cases h with
  | acknowledging hknown => exact hknown

end

/-- Whatever a turn waits for is answered with, it goes on as it may. -/
theorem fair_resume {stage : Stage Fold Opened Resolution} {answer : Answer Fold Opened Resolution}
    (h : Exact O kept) (hstands : Stands O kept.ended before key task stage)
    (hgoes : resumeTurn O kept key task stage answer = some goes) :
    Fair O kept key task before goes := by
  rw [resumeTurn.eq_def] at hgoes
  split at hgoes
  · next delivery observed fold =>
      obtain ⟨hkey, hfresh, hreads⟩ := hstands.of_attempting
      split at hgoes
      · cases hgoes
        exact fair_throws h
      · split at hgoes
        · cases hgoes
          exact fair_leave h hreads
        · cases hgoes
          exact fair_scanned h hkey hfresh hreads
  · obtain ⟨hkey, hfresh, hreads⟩ := hstands.of_attempting
    split at hgoes
    · cases hgoes
      exact fair_throws h
    · split at hgoes
      · cases hgoes
        exact fair_throws h
      · split at hgoes
        · cases hgoes
          exact fair_quiet h rfl rfl (.attempting hkey hfresh hreads) fun h => by cases h
        · cases hgoes
          exact fair_deferLoop h hkey hfresh hreads
  · obtain ⟨hkey, hfresh, hreads⟩ := hstands.of_attempting
    split at hgoes
    · cases hgoes
      exact fair_throws h
    · cases hgoes
      exact fair_finish h
    · cases hgoes
      exact fair_opening h hkey hfresh hreads
  · obtain ⟨hkey, hfresh, hreads⟩ := hstands.of_attempting
    split at hgoes
    · cases hgoes
      exact fair_quiet h rfl rfl (.attempting hkey hfresh hreads) fun h => by cases h
    · cases hgoes
      exact fair_quiet h rfl rfl (.attempting hkey hfresh hreads) fun h => by cases h
  · split at hgoes
    · cases hgoes
      exact fair_throws h
    · cases hgoes
      exact fair_finish h
  · obtain ⟨hkey, hfresh, hreads⟩ := hstands.of_attempting
    split at hgoes
    · cases hgoes
      exact fair_throws h
    · next hopen =>
        cases hgoes
        exact fair_opened h (Bool.eq_false_of_not_eq_true hopen) hkey hfresh hreads
  · obtain ⟨hkey, hfresh, hreads⟩ := hstands.of_attempting
    split at hgoes
    · cases hgoes
      exact fair_leave h hreads
    · cases hgoes
      exact fair_record h
    · cases hgoes
      exact fair_finish h
    · cases hgoes
      exact fair_deferLoop h hkey hfresh hreads
  · obtain ⟨hkey, hfresh, hreads⟩ := hstands.of_attempting
    split at hgoes
    · cases hgoes
      exact fair_leave h hreads
    · split at hgoes
      · cases hgoes
        exact fair_attempt h hkey hfresh hreads
      · cases hgoes
        exact fair_deferLoop h hkey hfresh hreads
  · next source received =>
      have hknown := hstands.of_telling
      split at hgoes
      · next how =>
          split at hgoes
          · cases hgoes
            exact fair_quiet h rfl rfl (.acknowledging (hknown (.inl rfl))) fun h => by cases h
          · cases hgoes
            exact fair_answers h rfl (fun _ h => h) hknown
      · cases hgoes
        exact fair_answers h rfl (fun _ h => h) hknown
  · have hknown := hstands.of_acknowledging
    split at hgoes
    · cases hgoes
      exact fair_answers (exact_forget h (fun _ hother => (OMap.mem_keys_erase.mp hother).1)
        (OMap.size_erase_le _ _)) rfl (fun _ hother => (OMap.mem_keys_erase.mp hother).1) fun _ => hknown
    · cases hgoes
      exact fair_answers h rfl (fun _ h => h) fun _ => hknown
  · cases hgoes

/-! ## Every step of the receiver -/

/-- What holds of the receiver between two steps. -/
structure Sound (O : Options Fold Opened Resolution) (r : Receiver Fold Opened Resolution) : Prop where
  exact : Exact O r.toKept
  ordered : r.turns.Ordered
  phases : ∀ (i : Nat) (call : Call Key (Work Fold Opened Resolution)), r.turns.calls[i]? = some call →
    call.phase = call.work.stage.phase ∨
      call.phase = .released ∧ ∃ outcome, call.work.stage = .over outcome
  stands : ∀ (i : Nat) (call : Call Key (Work Fold Opened Resolution)), r.turns.calls[i]? = some call →
    Stands O r.ended r.told call.key call.work.task call.work.stage
  known : ∀ key ∈ r.ended.keys, Known r.told key
  fates : ∀ front key back, r.told = front ++ .fate key .acked :: back → Known front key

variable {r : Receiver Fold Opened Resolution} {i : Nat} {call : Call Key (Work Fold Opened Resolution)}

theorem Stands.mono {ended ended' : OMap Key Ended} {told : List Told} {stage : Stage Fold Opened Resolution}
    (h : Stands O ended told key task stage) (more : List Told)
    (hended : ∀ delivery point, stage = .attempting delivery point → key ∉ ended'.keys) :
    Stands O ended' (told ++ more) key task stage := by
  cases h with
  | asked hkey => exact .asked hkey
  | attempting hkey _ hreads => exact .attempting hkey (hended _ _ rfl) hreads
  | left hreads => exact .left hreads
  | ended hknown => exact .ended (hknown.append more)
  | acknowledging hknown => exact .acknowledging (hknown.append more)
  | «over» => exact .over

/-- What is kept may be let go of outside any turn. -/
theorem Sound.forgets {kept' : Kept Fold} {changing : List (Change Fold)} (h : Sound O r)
    (hexact : Exact O kept') (hended : ∀ key ∈ kept'.ended.keys, key ∈ r.ended.keys) :
    Sound O { r with toKept := kept', changing := changing } where
  exact := hexact
  ordered := h.ordered
  phases := h.phases
  stands j call hcall := by
    have hstands : Stands O kept'.ended (r.told ++ []) call.key call.work.task call.work.stage :=
      (h.stands j call hcall).mono [] fun delivery point hstage hmem => by
        have hold := h.stands j call hcall
        rw [hstage] at hold
        exact hold.of_attempting.2.1 (hended _ hmem)
    rwa [List.append_nil] at hstands
  known key hkey := h.known key (hended key hkey)
  fates := h.fates

theorem Sound.inTurn {task : Task} (h : Sound O r)
    (hkey : ∀ delivery handle, task = .enter delivery handle → deliveryKey O delivery = some key) :
    Sound O (r.inTurn key task) := by
  have hcalls : ∀ (i : Nat) (call : Call Key (Work Fold Opened Resolution)),
      (r.inTurn key task).turns.calls[i]? = some call → r.turns.calls[i]? = some call ∨
        call = ⟨key, r.turns.tails.get? key, .waiting, task, .asked⟩ := by
    intro i call hcall
    have hcall' : (r.turns.calls ++ [⟨key, r.turns.tails.get? key, .waiting, ⟨task, .asked⟩⟩])[i]? =
        some call := hcall
    rw [List.getElem?_append] at hcall'
    split at hcall'
    · exact .inl hcall'
    · exact .inr (List.mem_singleton.mp (List.mem_of_getElem? hcall'))
  refine ⟨h.exact, Serially.ordered_ask h.ordered _ _, ?_, ?_, h.known, h.fates⟩
  · intro j call hcall
    rcases hcalls j call hcall with hold | rfl
    · exact h.phases j call hold
    · exact .inl rfl
  · intro j call hcall
    rcases hcalls j call hcall with hold | rfl
    · exact h.stands j call hold
    · exact .asked hkey

theorem append_single {α : Type} {told new front back : List α} {x : α}
    (h : told ++ new = front ++ x :: back) (hsingle : new.length ≤ 1) :
    (∃ rest, told = front ++ x :: rest) ∨ front = told ∧ new = [x] := by
  rcases List.append_eq_append_iff.mp h with ⟨between, hfront, hnew⟩ | ⟨between, htold, hback⟩
  · have hlength := congrArg List.length hnew
    rw [List.length_append, List.length_cons] at hlength
    have hbetween : between = [] := List.eq_nil_of_length_eq_zero (by omega)
    have hrest : back = [] := List.eq_nil_of_length_eq_zero (by omega)
    subst hbetween hrest
    rw [List.append_nil] at hfront
    exact .inr ⟨hfront, hnew⟩
  · cases between with
    | nil =>
        rw [List.append_nil] at htold
        have hlength := congrArg List.length hback
        rw [List.nil_append, List.length_cons] at hlength
        have hrest : back = [] := List.eq_nil_of_length_eq_zero (by omega)
        subst hrest
        exact .inr ⟨htold.symm, hback.symm⟩
    | cons y between =>
        rw [List.cons_append, List.cons.injEq] at hback
        obtain ⟨rfl, -⟩ := hback
        exact .inl ⟨between, htold⟩

/-- A step of a turn that may take it keeps everything. -/
theorem Sound.went (h : Sound O r) (hcall : r.turns.calls[i]? = some call)
    (hlive : call.phase ≠ .released)
    (hbefore : ∀ (j : Nat) (c : Call Key (Work Fold Opened Resolution)), j < i →
      r.turns.calls[j]? = some c → c.key = call.key → c.phase = .released)
    (hfair : Fair O r.toKept call.key call.work.task r.told goes) :
    Sound O (r.went i call.work.task goes) := by
  have hordered : (r.went i call.work.task goes).turns.Ordered := h.ordered.move hcall hlive hbefore
  have hholds : goes.stage.phase.holds = true := by
    cases hstage : goes.stage with
    | asked => exact absurd (by rw [hstage]; rfl) hfair.began
    | _ => rfl
  refine ⟨hfair.exact, hordered, ?_, ?_, ?_, ?_⟩
  · intro j c hc
    obtain ⟨c', hc', -, -, ⟨-, -, hphase, hwork⟩ | ⟨-, rfl⟩⟩ := Serially.get?_move hcall hc
    · rw [hphase, hwork]
      exact .inl rfl
    · exact h.phases j c hc'
  · intro j c hc
    obtain ⟨c', hc', hkey, -, ⟨-, rfl, hphase, hwork⟩ | ⟨hne, rfl⟩⟩ := Serially.get?_move hcall hc
    · rw [hwork, hkey]
      exact hfair.stands
    · refine (h.stands j c hc').mono goes.told fun delivery point hstage hmem => ?_
      have hold := h.stands j c hc'
      rw [hstage] at hold
      rcases hfair.ended _ hmem with hmem | ⟨hkey, -⟩
      · exact hold.of_attempting.2.1 hmem
      · -- a turn of the same delivery that has begun is this turn
        have hrunning : c.phase.holds = true := by
          rcases h.phases j c hc' with hphase | ⟨-, outcome, hover⟩
          · rw [hphase, hstage]
            rfl
          · rw [hstage] at hover
            cases hover
        obtain ⟨d, hd, hdkey, hdphase⟩ : ∃ d : Call Key (Work Fold Opened Resolution),
            (r.went i call.work.task goes).turns.calls[i]? = some d ∧ d.key = call.key ∧
              d.phase = goes.stage.phase := by
          show ∃ d, (r.turns.move i _ _).calls[i]? = some d ∧ _
          rw [(Serially.calls_move hcall _ _).1, List.getElem?_set,
            if_pos rfl, if_pos (List.getElem?_eq_some_iff.mp hcall).1]
          exact ⟨_, rfl, rfl, rfl⟩
        exact hne (hordered.unique hc hd (hkey.trans hdkey.symm) hrunning (hdphase ▸ hholds))
  · intro other hother
    rcases hfair.ended other hother with hother | ⟨rfl, hknown⟩
    · exact (h.known other hother).append goes.told
    · exact hknown
  · intro front other back htold
    rcases append_single htold hfair.single with ⟨rest, htold⟩ | ⟨rfl, hnew⟩
    · exact h.fates front other rest htold
    · exact hfair.fates other (hnew ▸ List.mem_singleton_self _)

/-! What each happening does: it lets go of something, asks for turns, or takes a step of one. -/

theorem exact_counted {changes nextWait : Nat} (h : Exact O kept) :
    Exact O { kept with changes := changes, nextWait := nextWait } :=
  ⟨h.waiting, h.owner, h.lengths, h.counted, h.room, h.waits, h.ended, h.apart, h.closed⟩

theorem sound_new : Sound O (Receiver.new : Receiver Fold Opened Resolution) := by
  refine ⟨⟨?_, ?_, ?_, rfl, ?_, Nat.zero_le _, Nat.zero_le _, ?_, fun _ => ⟨rfl, rfl, rfl, rfl⟩⟩,
    Serially.ordered_empty, ?_, ?_, ?_, ?_⟩
  · exact fun _ h => by cases h
  · exact fun _ _ h => by cases h
  · exact fun _ _ h => by cases h
  · exact Int.natCast_nonneg _
  · exact fun _ h => by cases h
  · exact fun _ _ h => by cases h
  · exact fun _ _ h => by cases h
  · exact fun _ h => by cases h
  · exact fun front _ _ h => by cases front <;> cases h

theorem Sound.receive {delivery : Delivery} {handle : Bool} (h : Sound O r) :
    Sound O (r.receive O delivery handle) := by
  rw [Receiver.receive]
  split
  · exact h
  · split
    · next key hkey =>
        exact h.inTurn fun other _ heq => by
          cases heq
          exact hkey
    · exact h.forgets (exact_discard h.exact) fun key hkey => (discard_eq _ _ _).1 ▸ hkey

theorem Sound.take {mediationId : JsString} {delivered : Delivered} (h : Sound O r) :
    Sound O (r.take O mediationId delivered) := by
  rw [Receiver.take]
  split
  · exact h.receive
  · split
    · exact h
    · exact h.inTurn fun _ _ heq => by cases heq

theorem mem_keys_forgotten {keyOf : JsString → Key} {ids : List JsString} {ended : OMap Key Ended} :
    (∀ key ∈ (ids.foldl (fun ended id => ended.erase (keyOf id)) ended).keys, key ∈ ended.keys) ∧
      (ids.foldl (fun ended id => ended.erase (keyOf id)) ended).size ≤ ended.size := by
  induction ids generalizing ended with
  | nil => exact ⟨fun _ h => h, Nat.le_refl _⟩
  | cons id rest ih =>
      obtain ⟨hkeys, hsize⟩ := @ih (ended.erase (keyOf id))
      exact ⟨fun key hkey => (OMap.mem_keys_erase.mp (hkeys key hkey)).1,
        hsize.trans (OMap.size_erase_le _ _)⟩

theorem Sound.acknowledged {mediationId : JsString} {ids : List JsString} (h : Sound O r) :
    Sound O (r.acknowledged mediationId ids) := by
  obtain ⟨hkeys, hsize⟩ := @mem_keys_forgotten (Key.pickup mediationId) ids r.ended
  exact h.forgets (exact_forget h.exact hkeys hsize) hkeys

theorem Sound.localStateChanged (h : Sound O r) : Sound O r.localStateChanged :=
  h.forgets (exact_counted h.exact) fun _ hkey => hkey

theorem Sound.next {change : Nat} {fold : Option Fold} (h : Sound O r)
    (waiting : List (Key × Wait Fold)) : Sound O (r.next change fold waiting) := by
  induction waiting with
  | nil => exact h.forgets h.exact fun _ hkey => hkey
  | cons entry rest ih =>
      rw [Receiver.next]
      split
      · exact h.forgets h.exact fun _ hkey => hkey
      · split
        · exact ih
        · have hasked : Sound O (r.inTurn entry.1 (.recheck entry.2.serial fold.isSome)) :=
            h.inTurn fun _ _ heq => by cases heq
          exact hasked.forgets hasked.exact fun _ hkey => hkey

theorem Sound.compared {change : Nat} {fold : Option Fold} (h : Sound O r) :
    Sound O (r.compared change fold) := by
  rw [Receiver.compared]
  split
  · exact h.next _
  · exact h

theorem Sound.wentOn {change : Nat} (h : Sound O r) : Sound O (r.wentOn change) := by
  rw [Receiver.wentOn]
  split
  · split
    · split
      · exact h.forgets h.exact fun _ hkey => hkey
      · exact h.next _
      · exact h
    · exact h
  · exact h

theorem Sound.close (h : Sound O r) : Sound O r.close := by
  refine h.forgets (exact_close h.exact) fun key hkey => ?_
  rw [Kept.close] at hkey
  split at hkey
  · exact hkey
  · cases hkey

/-- A step of a turn that may take it. -/
inductive Steps (O : Options Fold Opened Resolution) (r : Receiver Fold Opened Resolution) :
    Receiver Fold Opened Resolution → Prop where
  | none : Steps O r r
  | went {i : Nat} {call : Call Key (Work Fold Opened Resolution)} {goes : Goes Fold Opened Resolution} :
      r.turns.calls[i]? = some call → call.phase ≠ .released →
      (∀ (j : Nat) (c : Call Key (Work Fold Opened Resolution)), j < i →
        r.turns.calls[j]? = some c → c.key = call.key → c.phase = .released) →
      Fair O r.toKept call.key call.work.task r.told goes →
      Steps O r (r.went i call.work.task goes)

theorem Sound.begin_steps (h : Sound O r) (turn : Nat) : Steps O r (r.begin_ O turn) := by
  rw [Receiver.begin_]
  split
  · next call hcall =>
      split
      · next hmay =>
          refine .went hcall (by rw [hmay.1]; exact fun heq => by cases heq)
            (fun j c hj hc hkey => h.ordered.ready hcall hmay.2 hj hc hkey) (fair_begin h.exact h.known ?_)
          -- a turn that has not begun stands where it was asked
          have hstands := h.stands turn call hcall
          rcases h.phases turn call hcall with hphase | ⟨hphase, -⟩
          · cases hstage : call.work.stage with
            | asked =>
                rw [hstage] at hstands
                cases hstands with
                | asked hkey => exact hkey
            | _ =>
                rw [hmay.1, hstage] at hphase
                cases hphase
          · rw [hmay.1] at hphase
            cases hphase
      · exact .none
  · exact .none

/-- Only a turn that has begun and is not over waits for an answer. -/
theorem running_of_resumes {stage : Stage Fold Opened Resolution} {answer : Answer Fold Opened Resolution}
    (hgoes : resumeTurn O kept key task stage answer = some goes) : stage.phase = .running := by
  cases stage with
  | asked => cases hgoes
  | «over» outcome => cases hgoes
  | _ => rfl

theorem Sound.resume_steps (h : Sound O r) (turn : Nat) (answer : Answer Fold Opened Resolution) :
    Steps O r (r.resume O turn answer) := by
  rw [Receiver.resume]
  split
  · next call hcall =>
      split
      · next goes hgoes =>
          have hstage := running_of_resumes hgoes
          have hrunning : call.phase = .running := by
            rcases h.phases turn call hcall with hphase | ⟨-, outcome, hover⟩
            · rw [hphase, hstage]
            · rw [hover] at hstage
              cases hstage
          exact .went hcall (by rw [hrunning]; exact fun heq => by cases heq)
            (fun j c hj hc hkey => h.ordered.before hcall (by rw [hrunning]; exact fun heq => by cases heq)
              hj hc hkey) (fair_resume h.exact (h.stands turn call hcall) hgoes)
      · exact .none
  · exact .none

theorem Sound.steps {r' : Receiver Fold Opened Resolution} (h : Sound O r) (hsteps : Steps O r r') :
    Sound O r' := by
  cases hsteps with
  | none => exact h
  | went hcall hlive hbefore hfair => exact h.went hcall hlive hbefore hfair

theorem Sound.release {turn : Nat} (h : Sound O r) : Sound O (r.release turn) := by
  rw [Receiver.release]
  split
  · next call hcall =>
      split
      · next hsettled =>
          have hbefore := fun (j : Nat) (c : Call Key (Work Fold Opened Resolution)) (hj : j < turn)
            (hc : r.turns.calls[j]? = some c) (hkey : c.key = call.key) =>
            h.ordered.before hcall (by rw [hsettled]; exact fun heq => by cases heq) hj hc hkey
          refine ⟨h.exact, h.ordered.move hcall (by rw [hsettled]; exact fun heq => by cases heq) hbefore,
            ?_, ?_, h.known, h.fates⟩
          · intro j c hc
            obtain ⟨c', hc', -, -, ⟨rfl, rfl, hphase, hwork⟩ | ⟨-, rfl⟩⟩ :=
              Serially.get?_move hcall hc
            · rcases h.phases j c' hc' with hsame | ⟨-, hover⟩
              · refine .inr ⟨hphase, ?_⟩
                rw [hwork]
                rw [hsettled] at hsame
                cases hstage : c'.work.stage with
                | «over» outcome => exact ⟨outcome, rfl⟩
                | _ =>
                    rw [hstage] at hsame
                    cases hsame
              · exact .inr ⟨hphase, hwork ▸ hover⟩
            · exact h.phases j c hc'
          · intro j c hc
            obtain ⟨c', hc', hkey, -, ⟨rfl, rfl, -, hwork⟩ | ⟨-, rfl⟩⟩ :=
              Serially.get?_move hcall hc
            · rw [hwork, hkey]
              exact h.stands j c' hc'
            · exact h.stands j c hc'
      · exact h
  · exact h

theorem Sound.sweep {turn : Nat} (h : Sound O r) : Sound O (r.sweep turn) := by
  rw [Receiver.sweep]
  split
  · next call hcall =>
      split
      · next hover =>
          have hcalls : (r.turns.sweep turn).calls = r.turns.calls := by
            rw [Serially.Queue.sweep, hcall]
            simp only []
            split <;> rfl
          exact ⟨h.exact, Serially.ordered_sweep h.ordered hcall hover,
            fun j c hc => h.phases j c (hcalls ▸ hc), fun j c hc => h.stands j c (hcalls ▸ hc), h.known,
            h.fates⟩
      · exact h
  · exact h

theorem Sound.step (h : Sound O r) (happening : Happening Fold Opened Resolution) :
    Sound O (r.step O happening) := by
  cases happening with
  | receive delivery => exact h.receive
  | take mediationId delivered => exact h.take
  | acknowledged mediationId ids => exact h.acknowledged
  | localStateChanged => exact h.localStateChanged
  | compared change fold => exact h.compared
  | wentOn change => exact h.wentOn
  | close => exact h.close
  | begin turn => exact h.steps (h.begin_steps turn)
  | resume turn answer => exact h.steps (h.resume_steps turn answer)
  | release turn => exact h.release
  | sweep turn => exact h.sweep

theorem Sound.steps_all (h : Sound O r) (happenings : List (Happening Fold Opened Resolution)) :
    Sound O (happenings.foldl (Receiver.step O) r) := by
  induction happenings generalizing r with
  | nil => exact h
  | cons happening rest ih => exact ih (h.step happening)

theorem sound_run (O : Options Fold Opened Resolution)
    (happenings : List (Happening Fold Opened Resolution)) : Sound O (Receiver.run O happenings) :=
  sound_new.steps_all happenings

/-! ## What is told -/

/-- What a step adds to what was told. -/
structure Adds (r r' : Receiver Fold Opened Resolution) (new : List Told) : Prop where
  told : r'.told = r.told ++ new
  opening : ∀ key, .opening key ∈ new → key ∉ r.ended.keys
  closed : r.closed = true → r'.closed = true
  receipt : r.closed = true → ∀ key, .receipt key ∉ new

theorem adds_none {r' : Receiver Fold Opened Resolution} (htold : r'.told = r.told)
    (hclosed : r.closed = true → r'.closed = true) : Adds r r' [] :=
  ⟨by rw [htold, List.append_nil], fun _ h => (by cases h), hclosed, fun _ _ h => by cases h⟩

theorem Steps.adds {r' : Receiver Fold Opened Resolution} (h : Steps O r r') : ∃ new, Adds r r' new := by
  cases h with
  | none => exact ⟨[], adds_none rfl fun h => h⟩
  | @went i call goes _ _ _ hfair =>
      refine ⟨goes.told, rfl, hfair.opening, fun hclosed => hfair.closed.trans hclosed, ?_⟩
      intro hclosed key hkey
      exact absurd hclosed (by rw [hfair.receipt key hkey]; exact Bool.false_ne_true)

theorem next_adds {change : Nat} {fold : Option Fold} (waiting : List (Key × Wait Fold)) :
    (r.next change fold waiting).told = r.told ∧ (r.next change fold waiting).closed = r.closed := by
  induction waiting with
  | nil => exact ⟨rfl, rfl⟩
  | cons entry rest ih =>
      rw [Receiver.next]
      split
      · exact ⟨rfl, rfl⟩
      · split
        · exact ih
        · exact ⟨rfl, rfl⟩

theorem Sound.adds (h : Sound O r) (happening : Happening Fold Opened Resolution) :
    ∃ new, Adds r (r.step O happening) new := by
  have hreceive : ∀ delivery handle, (r.receive O delivery handle).told = r.told ∧
      (r.receive O delivery handle).closed = r.closed := by
    intro delivery handle
    rw [Receiver.receive]
    split
    · exact ⟨rfl, rfl⟩
    · split
      · exact ⟨rfl, rfl⟩
      · exact ⟨rfl, (discard_eq _ _ _).2⟩
  have hsame : ∀ {r' : Receiver Fold Opened Resolution}, r'.told = r.told ∧ r'.closed = r.closed →
      ∃ new, Adds r r' new := fun hr' => ⟨[], adds_none hr'.1 fun hclosed => hr'.2.trans hclosed⟩
  cases happening with
  | receive delivery => exact hsame (hreceive delivery false)
  | take mediationId delivered =>
      refine hsame ?_
      rw [Receiver.step, Receiver.take]
      split
      · exact hreceive _ _
      · split <;> exact ⟨rfl, rfl⟩
  | acknowledged mediationId ids => exact hsame ⟨rfl, rfl⟩
  | localStateChanged => exact hsame ⟨rfl, rfl⟩
  | compared change fold =>
      refine hsame ?_
      rw [Receiver.step, Receiver.compared]
      split
      · exact next_adds _
      · exact ⟨rfl, rfl⟩
  | wentOn change =>
      refine hsame ?_
      rw [Receiver.step, Receiver.wentOn]
      split
      · split
        · split
          · exact ⟨rfl, rfl⟩
          · exact next_adds _
          · exact ⟨rfl, rfl⟩
        · exact ⟨rfl, rfl⟩
      · exact ⟨rfl, rfl⟩
  | close =>
      refine ⟨[], adds_none rfl fun hclosed => ?_⟩
      show r.toKept.close.closed = true
      rw [Kept.close, if_pos hclosed]
      exact hclosed
  | begin turn => exact (h.begin_steps turn).adds
  | resume turn answer => exact (h.resume_steps turn answer).adds
  | release turn =>
      refine hsame ?_
      rw [Receiver.step, Receiver.release]
      split
      · split <;> exact ⟨rfl, rfl⟩
      · exact ⟨rfl, rfl⟩
  | sweep turn =>
      refine hsame ?_
      rw [Receiver.step, Receiver.sweep]
      split
      · split <;> exact ⟨rfl, rfl⟩
      · exact ⟨rfl, rfl⟩

/-- Closed, it stays closed, and no receipt is called from then on. -/
theorem Sound.closed_run (h : Sound O r) (hclosed : r.closed = true)
    (happenings : List (Happening Fold Opened Resolution)) :
    (happenings.foldl (Receiver.step O) r).closed = true ∧
      ∃ later, (happenings.foldl (Receiver.step O) r).told = r.told ++ later ∧
        ∀ key, .receipt key ∉ later := by
  induction happenings generalizing r with
  | nil => exact ⟨hclosed, [], (List.append_nil _).symm, fun _ h => by cases h⟩
  | cons happening rest ih =>
      obtain ⟨new, hadds⟩ := h.adds happening
      obtain ⟨hstill, later, htold, hnone⟩ := ih (h.step happening) (hadds.closed hclosed)
      refine ⟨hstill, new ++ later, ?_, ?_⟩
      · rw [List.foldl_cons, htold, hadds.told, List.append_assoc]
      · intro key hkey
        rcases List.mem_append.mp hkey with hkey | hkey
        · exact hadds.receipt hclosed key hkey
        · exact hnone key hkey

/-- How it ended, told again: no authority over what was earned the first time. -/
def Ended.again : Ended → Ended
  | .received cid _ => .received cid none
  | .terminal reason => .terminal reason

/-- What is remembered as ended is answered from memory. -/
theorem begin_remembered {turn : Nat} {delivery : Delivery} {handle : Bool} {how : Ended}
    (hcall : r.turns.calls[turn]? = some call) (hphase : call.phase = .waiting)
    (hready : r.turns.ready call = true) (htask : call.work.task = .enter delivery handle)
    (hopen : r.closed = false) (hended : r.ended.get? call.key = some how) :
    r.begin_ O turn = r.went turn call.work.task
      (settle r.toKept call.key call.work.task (.received (.ended how.again))) := by
  have hbegin : beginTurn O r.toKept call.key call.work.task =
      settle r.toKept call.key call.work.task (.received (.ended how.again)) := by
    rw [htask, beginTurn, enter, if_neg (by simp [hopen]), hended]
    cases how <;> rfl
  rw [Receiver.begin_, hcall]
  simp only [hphase, hready, and_self, if_true, hbegin]

/-- Whatever happens and in whatever order: what is kept adds up, the steps of one delivery
never overlap, a handle acknowledges what was recorded or found terminal, what ended is told
from memory and not opened again, and nothing is kept or handed on once it is closed. -/
theorem books_are_exact (O : Options Fold Opened Resolution)
    (happenings : List (Happening Fold Opened Resolution)) :
    let r := Receiver.run O happenings
    Exact O r.toKept ∧
    (∀ (i j : Nat) (a b : Call Key (Work Fold Opened Resolution)), r.turns.calls[i]? = some a →
      r.turns.calls[j]? = some b → a.key = b.key → a.phase.holds = true → b.phase.holds = true →
      i = j) ∧
    (∀ front key back, r.told = front ++ .fate key .acked :: back →
      .terminal key ∈ front ∨ ∃ cid, .recorded key cid ∈ front) ∧
    (∀ turn call delivery handle how, r.turns.calls[turn]? = some call → call.phase = .waiting →
      r.turns.ready call = true → call.work.task = .enter delivery handle → r.closed = false →
      r.ended.get? call.key = some how → r.begin_ O turn = r.went turn call.work.task
        (settle r.toKept call.key call.work.task (.received (.ended how.again)))) ∧
    (∀ happening, ∃ new, (r.step O happening).told = r.told ++ new ∧
      ∀ key, .opening key ∈ new → key ∉ r.ended.keys) ∧
    ∀ more : List (Happening Fold Opened Resolution), let after := more.foldl (Receiver.step O) r.close
      (after.waits = OMap.empty ∧ after.held = OMap.empty ∧ after.heldBytes = 0 ∧
        after.ended = OMap.empty) ∧
      ∃ later, after.told = r.told ++ later ∧ ∀ key, .receipt key ∉ later := by
  have h := sound_run O happenings
  refine ⟨h.exact, fun i j a b ha hb hkey hi hj => h.ordered.unique ha hb hkey hi hj, h.fates,
    fun turn call delivery handle how => begin_remembered, ?_, ?_⟩
  · intro happening
    obtain ⟨new, hadds⟩ := h.adds happening
    exact ⟨new, hadds.told, hadds.opening⟩
  · intro more
    have hclose : (Receiver.run O happenings).close.closed = true := by
      show (Receiver.run O happenings).toKept.close.closed = true
      rw [Kept.close]
      split
      · next hclosed => exact hclosed
      · rfl
    obtain ⟨hclosed, later, htold, hnone⟩ := h.close.closed_run hclose more
    exact ⟨(h.close.steps_all more).exact.closed hclosed, later, htold, hnone⟩

end Estoc.Agent.Receive
