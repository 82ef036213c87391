import Estoc.EventStore.Lock

/-!
# One operation at a time

What the two chains of promises keep. The lock's own invariant is that whatever began did
so when all before it was over. An operation's is told by its stage: while its callback
runs its views are good, from where `end` is called they take no mutation, and its call is
over only once every mutation it took in is.
-/

set_option linter.unusedSectionVars false

namespace Estoc.EventStore

open Turns (Phase Ordered resolved)

/-! ## A lock by itself -/

namespace WriterLock

/-- Turns are taken in order, and the holders are counted. -/
structure Ok (lock : WriterLock) : Prop where
  ordered : Ordered lock.asked
  counted : lock.holders = lock.asked.countP Phase.holds

variable {lock lock' : WriterLock} {i : Nat}

theorem ok_new : Ok new := ⟨List.Pairwise.nil, rfl⟩

theorem ok_run (h : lock.Ok) : lock.run.Ok where
  ordered := Turns.ordered_ask h.ordered
  counted := by simp [run, Turns.ask, h.counted, Phase.holds]

theorem start_eq_some (hs : lock.start i = some lock') :
    Turns.start lock.asked i = some lock'.asked ∧ lock'.holders = lock.holders + 1 := by
  obtain ⟨asked, hasked, rfl⟩ := Option.map_eq_some_iff.mp hs
  exact ⟨hasked, rfl⟩

theorem settle_eq_some (hs : lock.settle i = some lock') :
    Turns.settle lock.asked i = some lock'.asked ∧ lock'.holders = lock.holders := by
  obtain ⟨asked, hasked, rfl⟩ := Option.map_eq_some_iff.mp hs
  exact ⟨hasked, rfl⟩

theorem release_eq_some (hs : lock.release i = some lock') :
    Turns.release lock.asked i = some lock'.asked ∧ lock'.holders = lock.holders - 1 := by
  obtain ⟨asked, hasked, rfl⟩ := Option.map_eq_some_iff.mp hs
  exact ⟨hasked, rfl⟩

theorem ok_start (h : lock.Ok) (hs : lock.start i = some lock') : lock'.Ok := by
  obtain ⟨hasked, hholders⟩ := start_eq_some hs
  obtain ⟨_, hi, hset⟩ := Turns.start_eq_some hasked
  refine ⟨Turns.ordered_start h.ordered hasked, ?_⟩
  have hcount := Turns.count_set (b := .running) hi
  rw [← hset] at hcount
  simp only [Phase.holds, Bool.false_eq_true, ite_false, ite_true] at hcount
  rw [hholders, h.counted]
  omega

theorem ok_settle (h : lock.Ok) (hs : lock.settle i = some lock') : lock'.Ok := by
  obtain ⟨hasked, hholders⟩ := settle_eq_some hs
  obtain ⟨hi, hset⟩ := Turns.move_eq_some hasked
  refine ⟨Turns.ordered_move h.ordered (by decide) (by decide) hasked, ?_⟩
  have hcount := Turns.count_set (b := .settled) hi
  rw [← hset] at hcount
  simp only [Phase.holds, ite_true] at hcount
  rw [hholders, h.counted]
  omega

theorem ok_release (h : lock.Ok) (hs : lock.release i = some lock') : lock'.Ok := by
  obtain ⟨hasked, hholders⟩ := release_eq_some hs
  obtain ⟨hi, hset⟩ := Turns.move_eq_some hasked
  refine ⟨Turns.ordered_move h.ordered (by decide) (by decide) hasked, ?_⟩
  have hcount := Turns.count_set (b := .released) hi
  rw [← hset] at hcount
  simp only [Phase.holds, Bool.false_eq_true, ite_false, ite_true] at hcount
  rw [hholders, h.counted]
  omega

theorem Ok.one (h : lock.Ok) : lock.holders ≤ 1 := h.counted ▸ h.ordered.count_le_one

/-- Once all that was asked is over, no step is open. -/
theorem still (hover : ∀ p ∈ lock.asked, p = .released) :
    lock.start i = none ∧ lock.settle i = none ∧ lock.release i = none := by
  have hne : ∀ a, a ≠ .released → lock.asked[i]? ≠ some a := by
    intro a ha hi
    exact ha (hover a (List.mem_of_getElem? hi))
  have hmove : ∀ a b, a ≠ .released → Turns.move a b lock.asked i = none := by
    intro a b ha
    rw [Turns.move, if_neg (hne a ha)]
  refine ⟨?_, ?_, ?_⟩
  · rw [start, Turns.start, hmove _ _ (by decide), ite_self]
    rfl
  · rw [settle, Turns.settle, hmove _ _ (by decide)]
    rfl
  · rw [release, Turns.release, hmove _ _ (by decide)]
    rfl

end WriterLock

/-! ## An operation -/

/-- What an operation is like while its views take mutations, while its end waits, and
when its call is over. -/
structure Operation.Ok (operation : Operation) (returned ended : Bool) : Prop where
  mutations : operation.mutations.Ok
  returned : operation.returned = returned
  ended : operation.ended = ended

/-- How far a call is, beside the phase of its place in the lock. -/
def Call.Ok (phase : Phase) (call : Call) : Prop :=
  match call.stage with
  | .queued => phase = .waiting ∧ call.operation = none
  | .direct => phase = .running ∧ call.operation = none
  | .callback => phase = .running ∧ ∃ operation, call.operation = some operation ∧ operation.Ok false false
  | .settled => phase = .running ∧ ∃ operation, call.operation = some operation ∧ operation.Ok false false
  | .ending n => phase = .running ∧ ∃ operation, call.operation = some operation ∧
      operation.Ok true false ∧ operation.mutations.asked.length = n
  | .over => phase ≠ .waiting ∧ ∀ operation, call.operation = some operation →
      operation.Ok true true ∧ ∀ p ∈ operation.mutations.asked, p = .released

variable {phase : Phase} {call call' : Call}

theorem mutating_eq_some {change : WriterLock → Option WriterLock}
    (h : call.mutating change = some call') :
    ∃ operation mutations, call.operation = some operation ∧
      change operation.mutations = some mutations ∧
      call' = { call with operation := some { operation with mutations } } := by
  simp only [Call.mutating, Option.bind_eq_bind, Option.bind_eq_some_iff, Option.some.injEq] at h
  obtain ⟨operation, hoperation, mutations, hchange, rfl⟩ := h
  exact ⟨operation, mutations, hoperation, hchange, rfl⟩

/-- The mutations' own lock goes on, behind the same mutations. -/
theorem ok_mutating {change : WriterLock → Option WriterLock}
    (hok : ∀ {lock lock'}, lock.Ok → change lock = some lock' →
      lock'.Ok ∧ lock'.asked.length = lock.asked.length)
    (hstill : ∀ {lock : WriterLock}, (∀ p ∈ lock.asked, p = .released) → change lock = none)
    (h : call.Ok phase) (hm : call.mutating change = some call') : call'.Ok phase := by
  obtain ⟨operation, mutations, hoperation, hchange, rfl⟩ := mutating_eq_some hm
  unfold Call.Ok at h ⊢
  split at h
  · exact absurd hoperation (by simp [h.2])
  · exact absurd hoperation (by simp [h.2])
  case h_3 hstage | h_4 hstage =>
    obtain ⟨hphase, o, ho, hop⟩ := h
    obtain rfl : operation = o := Option.some.inj (hoperation.symm.trans ho)
    rw [hstage]
    exact ⟨hphase, _, rfl, (hok hop.mutations hchange).1, hop.returned, hop.ended⟩
  case h_5 n hstage =>
    obtain ⟨hphase, o, ho, hop, hlength⟩ := h
    obtain rfl : operation = o := Option.some.inj (hoperation.symm.trans ho)
    obtain ⟨hlock, hsame⟩ := hok hop.mutations hchange
    rw [hstage]
    exact ⟨hphase, _, rfl, ⟨hlock, hop.returned, hop.ended⟩, hsame.trans hlength⟩
  case h_6 hstage =>
    -- an operation that is over has no mutation left to go on
    obtain ⟨_, hover⟩ := h
    rw [hstill (hover operation hoperation).2] at hchange
    cases hchange

theorem ok_lock_start {lock lock' : WriterLock} {k : Nat} (h : lock.Ok)
    (hs : lock.start k = some lock') : lock'.Ok ∧ lock'.asked.length = lock.asked.length := by
  obtain ⟨_, _, hset⟩ := Turns.start_eq_some (WriterLock.start_eq_some hs).1
  exact ⟨WriterLock.ok_start h hs, by rw [hset, List.length_set]⟩

theorem ok_lock_settle {lock lock' : WriterLock} {k : Nat} (h : lock.Ok)
    (hs : lock.settle k = some lock') : lock'.Ok ∧ lock'.asked.length = lock.asked.length := by
  obtain ⟨_, hset⟩ := Turns.move_eq_some (WriterLock.settle_eq_some hs).1
  exact ⟨WriterLock.ok_settle h hs, by rw [hset, List.length_set]⟩

theorem ok_lock_release {lock lock' : WriterLock} {k : Nat} (h : lock.Ok)
    (hs : lock.release k = some lock') : lock'.Ok ∧ lock'.asked.length = lock.asked.length := by
  obtain ⟨_, hset⟩ := Turns.move_eq_some (WriterLock.release_eq_some hs).1
  exact ⟨WriterLock.ok_release h hs, by rw [hset, List.length_set]⟩

/-- What a mutation through a view gets. -/
theorem mutate_eq_ok {operation operation' : Operation} :
    operation.mutate = .ok operation' ↔ operation.ended = false ∧ operation.returned = false ∧
      operation' = { operation with mutations := operation.mutations.run } := by
  unfold Operation.mutate Operation.check
  cases operation.ended with
  | true => simp [bind, Except.bind]
  | false => cases operation.returned <;> simp [bind, Except.bind, eq_comm]

/-- A step inside a call keeps what its stage says. -/
theorem ok_inside {step : Inside} (h : call.Ok phase) (hs : call.inside step = some call') :
    call'.Ok phase := by
  cases step with
  | directSettles failed =>
      simp only [Call.inside] at hs
      split at hs
      case isFalse => cases hs
      case isTrue hstage =>
        obtain rfl := Option.some.inj hs
        simp only [Call.Ok, hstage] at h ⊢
        exact ⟨by simp [h.1], fun o ho => absurd ho (by simp [h.2])⟩
  | callbackSettles failed =>
      simp only [Call.inside] at hs
      split at hs
      case isFalse => cases hs
      case isTrue hstage =>
        obtain rfl := Option.some.inj hs
        simp only [Call.Ok, hstage] at h ⊢
        exact h
  | resumes =>
      simp only [Call.inside, Option.bind_eq_bind, Option.bind_eq_some_iff] at hs
      obtain ⟨operation, hoperation, hs⟩ := hs
      split at hs
      case isFalse => cases hs
      case isTrue hstage =>
        obtain rfl := Option.some.inj hs
        simp only [Call.Ok, hstage] at h ⊢
        obtain ⟨hphase, o, ho, hop⟩ := h
        obtain rfl : operation = o := Option.some.inj (hoperation.symm.trans ho)
        exact ⟨hphase, _, rfl, ⟨hop.mutations, rfl, hop.ended⟩, rfl⟩
  | mutationsIdle =>
      simp only [Call.inside, Option.bind_eq_bind, Option.bind_eq_some_iff] at hs
      obtain ⟨operation, hoperation, hs⟩ := hs
      split at hs
      case h_2 => cases hs
      case h_1 n hstage =>
        split at hs
        case isFalse => cases hs
        case isTrue hidle =>
          obtain rfl := Option.some.inj hs
          simp only [Call.Ok, hstage] at h ⊢
          obtain ⟨hphase, o, ho, hop, hlength⟩ := h
          obtain rfl : operation = o := Option.some.inj (hoperation.symm.trans ho)
          refine ⟨by simp [hphase], fun o' ho' => ?_⟩
          obtain rfl := Option.some.inj ho'
          refine ⟨⟨hop.mutations, hop.returned, rfl⟩, fun p hp => ?_⟩
          -- the promise waited for was the last one's, and none came behind it
          obtain ⟨k, hk, rfl⟩ := List.getElem_of_mem hp
          have hreleased := hop.mutations.ordered.resolved hidle (hlength ▸ hk)
          rw [List.getElem?_eq_getElem hk] at hreleased
          exact Option.some.inj hreleased
  | mutation =>
      simp only [Call.inside, Option.bind_eq_bind, Option.bind_eq_some_iff] at hs
      obtain ⟨operation, hoperation, hs⟩ := hs
      split at hs
      case h_2 =>
        obtain rfl := Option.some.inj hs
        exact h
      case h_1 operation' hmutate =>
        obtain rfl := Option.some.inj hs
        obtain ⟨hended, hreturned, rfl⟩ := mutate_eq_ok.mp hmutate
        unfold Call.Ok at h ⊢
        split at h
        · exact absurd hoperation (by simp [h.2])
        · exact absurd hoperation (by simp [h.2])
        case h_3 hstage | h_4 hstage =>
          obtain ⟨hphase, o, ho, hop⟩ := h
          obtain rfl : operation = o := Option.some.inj (hoperation.symm.trans ho)
          rw [hstage]
          exact ⟨hphase, _, rfl, WriterLock.ok_run hop.mutations, hop.returned, hop.ended⟩
        case h_5 n hstage =>
          obtain ⟨_, o, ho, hop, _⟩ := h
          obtain rfl : operation = o := Option.some.inj (hoperation.symm.trans ho)
          rw [hop.returned] at hreturned
          cases hreturned
        case h_6 hstage =>
          rw [(h.2 operation hoperation).1.returned] at hreturned
          cases hreturned
  | mutationStarts k => exact ok_mutating ok_lock_start (fun hover => (WriterLock.still hover).1) h hs
  | mutationSettles k failed =>
      exact ok_mutating ok_lock_settle (fun hover => (WriterLock.still hover).2.1) h hs
  | mutationReleases k =>
      exact ok_mutating ok_lock_release (fun hover => (WriterLock.still hover).2.2) h hs
  | read =>
      obtain ⟨_, _, rfl⟩ := Option.map_eq_some_iff.mp hs
      exact h

/-! ## A runtime -/

namespace Runtime

/-- The lock is in order, and every call is as far as its place in the lock lets it. -/
structure Ok (runtime : Runtime) : Prop where
  lock : runtime.lock.Ok
  length : runtime.calls.length = runtime.lock.asked.length
  calls : ∀ (i : Nat) (phase : Phase) (call : Call), runtime.lock.asked[i]? = some phase →
    runtime.calls[i]? = some call → call.Ok phase

variable {runtime runtime' : Runtime}

theorem ok_new : Ok new := ⟨WriterLock.ok_new, rfl, fun _ _ _ hp => by cases hp⟩

/-- The promise of a call that is over settles, and lets the next call go. -/
theorem ok_moved {lock : WriterLock} {i : Nat} {b : Phase} (h : runtime.Ok) (hlock : lock.Ok)
    (hasked : lock.asked = runtime.lock.asked.set i b) (hb : b ≠ .waiting)
    (hover : ∀ call, runtime.calls[i]? = some call → call.stage = .over) :
    Ok { runtime with lock } := by
  refine ⟨hlock, ?_, fun j phase call hp hc => ?_⟩
  · rw [hasked, List.length_set, h.length]
  · rw [hasked, List.getElem?_set] at hp
    split at hp
    case isFalse hne => exact h.calls j phase call hp hc
    case isTrue heq =>
      subst heq
      split at hp
      case isFalse => cases hp
      case isTrue hlen =>
        obtain rfl := Option.some.inj hp
        have hold := h.calls i _ call (List.getElem?_eq_getElem hlen) hc
        simp only [Call.Ok, hover call hc] at hold ⊢
        exact ⟨hb, hold.2⟩

theorem ok_step {step : Step} (h : runtime.Ok) (hs : runtime.step step = some runtime') :
    runtime'.Ok := by
  cases step with
  | enter locked refused =>
      simp only [Runtime.step] at hs
      split at hs
      · obtain rfl := Option.some.inj hs
        exact h
      · obtain rfl := Option.some.inj hs
        refine ⟨WriterLock.ok_run h.lock, ?_, fun i phase call hp hc => ?_⟩
        · simp [WriterLock.run, Turns.ask, h.length]
        · simp only [WriterLock.run, Turns.ask, List.getElem?_append, h.length] at hp hc
          split at hp
          · next hlt =>
              rw [if_pos hlt] at hc
              exact h.calls i phase call hp hc
          · next hlt =>
              rw [if_neg hlt] at hc
              have hphase := List.mem_singleton.mp (List.mem_of_getElem? hp)
              have hcall := List.mem_singleton.mp (List.mem_of_getElem? hc)
              subst hphase hcall
              exact ⟨rfl, rfl⟩
  | starts i refused =>
      simp only [Runtime.step, Option.bind_eq_bind, Option.bind_eq_some_iff, Option.some.injEq] at hs
      obtain ⟨call, hcall, lock, hlock, rfl⟩ := hs
      obtain ⟨_, hi, hset⟩ := Turns.start_eq_some (WriterLock.start_eq_some hlock).1
      refine ⟨WriterLock.ok_start h.lock hlock, ?_, fun j phase c hp hc => ?_⟩
      · rw [hset, List.length_set, List.length_set, h.length]
      · rw [hset, List.getElem?_set] at hp
        rw [List.getElem?_set] at hc
        split at hp
        case isFalse hne =>
          rw [if_neg hne] at hc
          exact h.calls j phase c hp hc
        case isTrue heq =>
          subst heq
          have hold := h.calls i _ _ hi hcall
          rw [if_pos rfl] at hc
          split at hp
          case isFalse => cases hp
          case isTrue hlen =>
            rw [if_pos (by rw [h.length]; exact hlen)] at hc
            obtain rfl := Option.some.inj hp
            obtain rfl := Option.some.inj hc
            have hnone : call.operation = none := by
              unfold Call.Ok at hold
              split at hold
              · exact hold.2
              · exact hold.2
              all_goals exact absurd hold.1 (by decide)
            unfold Call.begin
            split
            · exact ⟨by decide, fun o ho => absurd ho (by simp [hnone])⟩
            · split
              · exact ⟨rfl, _, rfl, WriterLock.ok_new, rfl, rfl⟩
              · exact ⟨rfl, hnone⟩
  | inside i inside =>
      simp only [Runtime.step, Option.bind_eq_bind, Option.bind_eq_some_iff, Option.some.injEq] at hs
      obtain ⟨call, hcall, call', hinside, rfl⟩ := hs
      refine ⟨h.lock, ?_, fun j phase c hp hc => ?_⟩
      · rw [List.length_set, h.length]
      · rw [List.getElem?_set] at hc
        split at hc
        case isFalse hne => exact h.calls j phase c hp hc
        case isTrue heq =>
          subst heq
          split at hc
          case isFalse => cases hc
          case isTrue =>
            obtain rfl := Option.some.inj hc
            exact ok_inside (h.calls i phase call hp hcall) hinside
  | settles i =>
      simp only [Runtime.step, Option.bind_eq_bind, Option.bind_eq_some_iff] at hs
      obtain ⟨call, hcall, lock, hlock, hs⟩ := hs
      split at hs
      case isFalse => cases hs
      case isTrue hstage =>
        obtain rfl := Option.some.inj hs
        obtain ⟨_, hset⟩ := Turns.move_eq_some (WriterLock.settle_eq_some hlock).1
        refine ok_moved h (WriterLock.ok_settle h.lock hlock) hset (by decide) fun c hc => ?_
        rw [hcall] at hc
        exact Option.some.inj hc ▸ hstage
  | releases i =>
      simp only [Runtime.step, Option.bind_eq_bind, Option.bind_eq_some_iff, Option.some.injEq] at hs
      obtain ⟨lock, hlock, rfl⟩ := hs
      obtain ⟨hi, hset⟩ := Turns.move_eq_some (WriterLock.release_eq_some hlock).1
      refine ok_moved h (WriterLock.ok_release h.lock hlock) hset (by decide) fun c hc => ?_
      -- a promise that has settled is of a call that is over
      have hold := h.calls i _ c hi hc
      unfold Call.Ok at hold
      split at hold
      case h_6 hstage => exact hstage
      all_goals exact absurd hold.1 (by decide)

theorem ok_run {steps : List Step} (h : runtime.Ok) (hs : run steps runtime = some runtime') :
    runtime'.Ok := by
  induction steps generalizing runtime with
  | nil =>
      obtain rfl := Option.some.inj hs
      exact h
  | cons step steps ih =>
      simp only [run, Option.bind_eq_bind, Option.bind_eq_some_iff] at hs
      obtain ⟨next, hstep, hrest⟩ := hs
      exact ih (ok_step h hstep) hrest

/-! ## What `end` has marked stays so -/

/-- The call's operation takes no more mutations. -/
def Returned (runtime : Runtime) (i : Nat) : Prop :=
  ∃ call operation, runtime.calls[i]? = some call ∧ call.operation = some operation ∧
    operation.returned = true

theorem returned_inside {call call' : Call} {operation : Operation} {step : Inside}
    (hoperation : call.operation = some operation) (hreturned : operation.returned = true)
    (hs : call.inside step = some call') :
    ∃ operation', call'.operation = some operation' ∧ operation'.returned = true := by
  have hmutating : ∀ change, call.mutating change = some call' →
      ∃ operation', call'.operation = some operation' ∧ operation'.returned = true := by
    intro change hm
    obtain ⟨o, mutations, ho, _, rfl⟩ := mutating_eq_some hm
    obtain rfl := Option.some.inj (hoperation.symm.trans ho)
    exact ⟨_, rfl, hreturned⟩
  cases step with
  | directSettles failed =>
      simp only [Call.inside] at hs
      split at hs
      case isFalse => cases hs
      case isTrue => exact Option.some.inj hs ▸ ⟨operation, hoperation, hreturned⟩
  | callbackSettles failed =>
      simp only [Call.inside] at hs
      split at hs
      case isFalse => cases hs
      case isTrue => exact Option.some.inj hs ▸ ⟨operation, hoperation, hreturned⟩
  | resumes =>
      simp only [Call.inside, hoperation, Option.bind_eq_bind, Option.bind_some] at hs
      split at hs
      case isFalse => cases hs
      case isTrue => exact Option.some.inj hs ▸ ⟨_, rfl, rfl⟩
  | mutationsIdle =>
      simp only [Call.inside, hoperation, Option.bind_eq_bind, Option.bind_some] at hs
      split at hs
      case h_2 => cases hs
      case h_1 =>
        split at hs
        case isFalse => cases hs
        case isTrue => exact Option.some.inj hs ▸ ⟨_, rfl, hreturned⟩
  | mutation =>
      simp only [Call.inside, hoperation, Option.bind_eq_bind, Option.bind_some] at hs
      split at hs
      case h_2 => exact Option.some.inj hs ▸ ⟨operation, hoperation, hreturned⟩
      case h_1 _ hmutate =>
        rw [(mutate_eq_ok.mp hmutate).2.1] at hreturned
        cases hreturned
  | mutationStarts k => exact hmutating (·.start k) hs
  | mutationSettles k failed => exact hmutating (·.settle k) hs
  | mutationReleases k => exact hmutating (·.release k) hs
  | read =>
      obtain ⟨_, _, rfl⟩ := Option.map_eq_some_iff.mp hs
      exact ⟨operation, hoperation, hreturned⟩

/-- A step replaces no call but its own. -/
theorem returned_set {i j : Nat} {lock : WriterLock} {call : Call} (h : runtime.Returned i)
    (hsame : i = j → ∃ operation, call.operation = some operation ∧ operation.returned = true) :
    Returned ⟨lock, runtime.calls.set j call⟩ i := by
  obtain ⟨c, operation, hc, hoperation, hreturned⟩ := h
  by_cases heq : i = j
  · subst heq
    obtain ⟨operation', hoperation', hreturned'⟩ := hsame rfl
    exact ⟨call, operation', List.getElem?_set_self (List.getElem?_eq_some_iff.mp hc).1, hoperation',
      hreturned'⟩
  · exact ⟨c, operation, (List.getElem?_set_ne (Ne.symm heq)).trans hc, hoperation, hreturned⟩

theorem returned_step {step : Step} {i : Nat} (hok : runtime.Ok) (h : runtime.Returned i)
    (hs : runtime.step step = some runtime') : runtime'.Returned i := by
  obtain ⟨call, operation, hcall, hoperation, hreturned⟩ := id h
  cases step with
  | enter locked refused =>
      simp only [Runtime.step] at hs
      split at hs
      · exact Option.some.inj hs ▸ h
      · obtain rfl := Option.some.inj hs
        refine ⟨call, operation, ?_, hoperation, hreturned⟩
        rw [List.getElem?_append_left (List.getElem?_eq_some_iff.mp hcall).1]
        exact hcall
  | starts j refused =>
      simp only [Runtime.step, Option.bind_eq_bind, Option.bind_eq_some_iff, Option.some.injEq] at hs
      obtain ⟨c, hc, lock, hlock, rfl⟩ := hs
      refine returned_set h fun heq => ?_
      -- a call that still waits for the lock has no operation
      subst heq
      obtain ⟨_, hi, _⟩ := Turns.start_eq_some (WriterLock.start_eq_some hlock).1
      have hold := hok.calls i _ call hi hcall
      unfold Call.Ok at hold
      split at hold
      · exact absurd hoperation (by simp [hold.2])
      · exact absurd hoperation (by simp [hold.2])
      all_goals exact absurd hold.1 (by decide)
  | inside j inside =>
      simp only [Runtime.step, Option.bind_eq_bind, Option.bind_eq_some_iff, Option.some.injEq] at hs
      obtain ⟨c, hc, c', hinside, rfl⟩ := hs
      refine returned_set h fun heq => ?_
      subst heq
      obtain rfl := Option.some.inj (hcall.symm.trans hc)
      exact returned_inside hoperation hreturned hinside
  | settles j =>
      simp only [Runtime.step, Option.bind_eq_bind, Option.bind_eq_some_iff] at hs
      obtain ⟨c, hc, lock, hlock, hs⟩ := hs
      split at hs
      case isFalse => cases hs
      case isTrue => exact Option.some.inj hs ▸ ⟨call, operation, hcall, hoperation, hreturned⟩
  | releases j =>
      simp only [Runtime.step, Option.bind_eq_bind, Option.bind_eq_some_iff, Option.some.injEq] at hs
      obtain ⟨lock, hlock, rfl⟩ := hs
      exact ⟨call, operation, hcall, hoperation, hreturned⟩

theorem returned_resumes {i : Nat} (hs : runtime.step (.inside i .resumes) = some runtime') :
    runtime'.Returned i := by
  simp only [Runtime.step, Call.inside, Option.bind_eq_bind, Option.bind_eq_some_iff,
    Option.some.injEq] at hs
  obtain ⟨call, hcall, call', ⟨operation, _, hresumes⟩, rfl⟩ := hs
  split at hresumes
  case isFalse => cases hresumes
  case isTrue =>
    obtain rfl := Option.some.inj hresumes
    exact ⟨_, _, List.getElem?_set_self (List.getElem?_eq_some_iff.mp hcall).1, rfl, rfl⟩

theorem returned_run {steps : List Step} {i : Nat} (hok : runtime.Ok)
    (h : runtime.Returned i ∨ .inside i .resumes ∈ steps) (hs : run steps runtime = some runtime') :
    runtime'.Returned i := by
  induction steps generalizing runtime with
  | nil =>
      obtain rfl := Option.some.inj hs
      exact h.resolve_right List.not_mem_nil
  | cons step steps ih =>
      simp only [run, Option.bind_eq_bind, Option.bind_eq_some_iff] at hs
      obtain ⟨next, hstep, hrest⟩ := hs
      refine ih (ok_step hok hstep) ?_ hrest
      rcases h with h | h
      · exact .inl (returned_step hok h hstep)
      · rcases List.mem_cons.mp h with rfl | h
        · exact .inl (returned_resumes hstep)
        · exact .inr h

end Runtime

/-! ## What the lock promises -/

namespace WriterLock

variable (lock : WriterLock)

/-- It is the turn of the `i`-th that asked. -/
def Holds (i : Nat) : Prop := ∃ phase, lock.asked[i]? = some phase ∧ phase.holds = true

/-- The `i`-th that asked has had the lock, or has it. -/
def Begun (i : Nat) : Prop := ∃ phase, lock.asked[i]? = some phase ∧ phase ≠ .waiting

/-- The `i`-th that asked has let the lock go. -/
def Over (i : Nat) : Prop := lock.asked[i]? = some .released

/-- One holds the lock at a time, and they get it in the order they asked. -/
structure TakesTurns : Prop where
  one : lock.holders ≤ 1
  unique : ∀ i j, lock.Holds i → lock.Holds j → i = j
  inOrder : ∀ i j, j < i → lock.Begun i → lock.Over j

variable {lock}

theorem Ok.takesTurns (h : lock.Ok) : lock.TakesTurns where
  one := h.one
  unique := fun _ _ ⟨_, hi, ha⟩ ⟨_, hj, hb⟩ => h.ordered.unique hi hj ha hb
  inOrder := fun _ _ hji ⟨_, hi, hbegun⟩ => h.ordered.before hi hbegun hji

end WriterLock

/-- In every run, whatever fails in it: the lock's holders take turns, and so do the
mutations of each operation; a mutation that is not over is of the operation that holds
the lock; once the runtime has resumed after the callback no mutation is taken in; and
once the lock is let go no call through the view is. -/
theorem writer_lock_admits_one {steps : List Step} {runtime : Runtime}
    (h : Runtime.run steps .new = some runtime) :
    runtime.lock.TakesTurns ∧
      ∀ (i : Nat) (call : Call) (operation : Operation), runtime.calls[i]? = some call →
        call.operation = some operation →
        operation.mutations.TakesTurns ∧
          (∀ k, k < operation.mutations.asked.length → ¬operation.mutations.Over k →
            runtime.lock.Holds i) ∧
          (.inside i .resumes ∈ steps → ∃ e, operation.mutate = .error e) ∧
          (runtime.lock.Over i →
            (∃ e, operation.check = .error e) ∧ ∃ e, operation.mutate = .error e) := by
  have hok := Runtime.ok_run Runtime.ok_new h
  refine ⟨hok.lock.takesTurns, fun i call operation hcall hoperation => ?_⟩
  obtain ⟨phase, hphase⟩ : ∃ phase, runtime.lock.asked[i]? = some phase :=
    ⟨_, List.getElem?_eq_getElem (hok.length ▸ (List.getElem?_eq_some_iff.mp hcall).1)⟩
  have hcallOk := hok.calls i phase call hphase hcall
  have hrefused : ∀ {o : Operation}, o.returned = true → ∃ e, o.mutate = .error e := by
    intro o hreturned
    cases hmutate : o.mutate with
    | error e => exact ⟨e, rfl⟩
    | ok o' =>
        rw [(mutate_eq_ok.mp hmutate).2.1] at hreturned
        cases hreturned
  have hreturned : .inside i .resumes ∈ steps → ∃ e, operation.mutate = .error e := by
    intro hresumes
    obtain ⟨c, o, hc, ho, hreturned⟩ := Runtime.returned_run Runtime.ok_new (.inr hresumes) h
    obtain rfl := Option.some.inj (hcall.symm.trans hc)
    obtain rfl := Option.some.inj (hoperation.symm.trans ho)
    exact hrefused hreturned
  -- either the call holds the lock and its views are good for something, or it is over
  unfold Call.Ok at hcallOk
  split at hcallOk
  · exact absurd hoperation (by simp [hcallOk.2])
  · exact absurd hoperation (by simp [hcallOk.2])
  case h_3 | h_4 | h_5 =>
    obtain ⟨rfl, o, ho, hop⟩ := hcallOk
    obtain rfl := Option.some.inj (hoperation.symm.trans ho)
    refine ⟨?_, fun _ _ _ => ⟨_, hphase, rfl⟩, hreturned, fun hover => ?_⟩
    · first | exact hop.mutations.takesTurns | exact hop.1.mutations.takesTurns
    · rw [WriterLock.Over, hphase] at hover
      cases hover
  case h_6 =>
    obtain ⟨hop, hover⟩ := hcallOk.2 operation hoperation
    refine ⟨hop.mutations.takesTurns, fun k hk hnot => ?_, hreturned, fun _ => ⟨?_, hrefused hop.returned⟩⟩
    · refine absurd ?_ hnot
      rw [WriterLock.Over, List.getElem?_eq_getElem hk, hover _ (List.getElem_mem hk)]
    · rw [Operation.check, if_pos hop.ended]
      exact ⟨_, rfl⟩

/-- A mutation that is issued after the callback's promise has settled, by a job queued
before the one that resumes the runtime, is taken in. -/
theorem mutation_after_settled :
    ∃ runtime, Runtime.run [.enter true false, .starts 0 false, .inside 0 (.callbackSettles false)]
        .new = some runtime ∧
      (∃ call operation, runtime.calls[0]? = some call ∧ call.operation = some operation ∧
        ∃ operation', operation.mutate = .ok operation') := by
  exact ⟨_, rfl, _, _, rfl, rfl, _, rfl⟩

/-- Two operations, the first of which issues a mutation, does not wait for it and fails,
while the second waits. -/
theorem writer_lock_admits_one_example :
    let steps : List Step :=
      [.enter true false, .enter true false, .starts 0 false, .inside 0 .mutation,
        .inside 0 (.callbackSettles true), .inside 0 .resumes, .inside 0 (.mutationStarts 0),
        .inside 0 .mutation]
    ∃ runtime, Runtime.run steps .new = some runtime ∧ runtime.lock.TakesTurns ∧
      runtime.lock.Holds 0 := by
  intro steps
  refine ⟨⟨⟨[.running, .waiting], 1⟩,
    [⟨true, .ending 1, some ⟨⟨[.running], 1⟩, true, false⟩⟩, ⟨true, .queued, none⟩]⟩, by decide, ?_⟩
  have hrun : Runtime.run steps .new = some ⟨⟨[.running, .waiting], 1⟩,
      [⟨true, .ending 1, some ⟨⟨[.running], 1⟩, true, false⟩⟩, ⟨true, .queued, none⟩]⟩ := by decide
  obtain ⟨hturns, hcalls⟩ := writer_lock_admits_one hrun
  obtain ⟨_, hholds, _⟩ := hcalls 0 _ _ rfl rfl
  exact ⟨hturns, hholds 0 (by decide) (by simp [WriterLock.Over])⟩

end Estoc.EventStore
