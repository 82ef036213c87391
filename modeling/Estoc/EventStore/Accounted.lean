import Estoc.EventStore.Accounts

/-!
# The staging is accounted for

Every token that something is staged under has one owner: a put that reads, a put that waits for its
hold, or the preparation that holds what was staged. What is counted of a token is what is staged
under it, unless a publication dropped it in a transaction that was taken back; such a token is
still held by its preparation, which drops it once more as it ends.
-/

set_option linter.unusedSectionVars false

namespace Estoc.EventStore

open Utf16 (JsString)

namespace Accounts

open Streams (Flight)
open SqliteObjectStore (Clean Counted Touches Idle Drops)
open SqlitePreparation (Alike)

variable {bound : Nat} {s s' : SqliteObjectStore} {owners owners' tokens : List Nat} {pending pending' may : Nat → Prop}

/-! ## The accounts of a store -/

/-- The accounts of a store whose staging has owners; some of what they own is pending: dropped in a
transaction that was taken back. -/
structure Books (bound : Nat) (s : SqliteObjectStore) (owners : List Nat) (pending : Nat → Prop) : Prop where
  nodup : owners.Nodup
  issued : ∀ token ∈ owners, token ≤ s.tokens
  clean : ∀ token, token ∉ owners → s.Clean token
  counted : ∀ token, s.Counted token ∨ (pending token ∧ s.stagedBytesByToken.get? token = none)
  addsUp : s.tally.AddsUp
  within : s.stagedBytes ≤ s.maxStagedBytes
  bound : s.maxStagedBytes = bound

theorem Books.perm (h : Books bound s owners pending) (hperm : owners.Perm owners') : Books bound s owners' pending :=
  { h with
    nodup := hperm.nodup_iff.mp h.nodup
    issued := fun token htoken => h.issued token (hperm.mem_iff.mpr htoken)
    clean := fun token hnot => h.clean token fun hin => hnot (hperm.mem_iff.mp hin) }

theorem Books.pending_mono (h : Books bound s owners pending) (hle : ∀ token, pending token → pending' token) :
    Books bound s owners pending' :=
  { h with counted := fun token => (h.counted token).imp_right (And.imp_left (hle token)) }

/-- A step that touches what is owned and not pending. -/
theorem Books.touches (h : Books bound s owners pending) (htouches : Touches may s s')
    (howned : ∀ token, may token → token ∈ owners)
    (hpending : ∀ token, may token → pending token → s'.Counted token) : Books bound s' owners pending where
  nodup := h.nodup
  issued token htoken := htouches.tokens ▸ h.issued token htoken
  clean token hnot := htouches.clean (fun hmay => hnot (howned token hmay)) (h.clean token hnot)
  counted token := by
    rcases h.counted token with hcounted | ⟨htoken, hnone⟩
    · exact .inl (htouches.counted token hcounted)
    · by_cases hmay : may token
      · exact .inl (hpending token hmay htoken)
      · exact .inr ⟨htoken, (htouches.counts token hmay).trans hnone⟩
  addsUp := htouches.addsUp h.addsUp
  within := htouches.within h.within
  bound := htouches.bound.trans h.bound

theorem Books.idle (h : Books bound s owners pending) (hidle : Idle s s') : Books bound s' owners pending :=
  h.touches hidle (fun _ => False.elim) fun _ => False.elim

/-- What is clean needs no owner. -/
theorem Books.release (h : Books bound s (tokens ++ owners) pending) (hclean : ∀ token ∈ tokens, s.Clean token)
    (hpending : ∀ token, pending token → token ∈ tokens ∨ pending' token) : Books bound s owners pending' where
  nodup := (List.nodup_append.mp h.nodup).2.1
  issued token htoken := h.issued token (List.mem_append_right _ htoken)
  clean token hnot := by
    by_cases hin : token ∈ tokens
    · exact hclean token hin
    · exact h.clean token fun happend => (List.mem_append.mp happend).elim hin hnot
  counted token := by
    rcases h.counted token with hcounted | ⟨htoken, hnone⟩
    · exact .inl hcounted
    · rcases hpending token htoken with hin | htoken
      · exact .inl (hclean token hin).counted
      · exact .inr ⟨htoken, hnone⟩
  addsUp := h.addsUp
  within := h.within
  bound := h.bound

/-- A new token, of which nothing is staged yet. -/
theorem Books.begin (h : Books bound s owners pending) (hs : s' = { s with tokens := s.tokens + 1 }) :
    Books bound s' ((s.tokens + 1) :: owners) pending := by
  subst hs
  refine ⟨List.nodup_cons.mpr ⟨fun hin => ?_, h.nodup⟩, List.forall_mem_cons.mpr ⟨Nat.le_refl _, ?_⟩, ?_,
    h.counted, h.addsUp, h.within, h.bound⟩
  · exact Nat.not_succ_le_self _ (h.issued _ hin)
  · exact fun token htoken => Nat.le_succ_of_le (h.issued token htoken)
  · intro token hnot
    have hclean := h.clean token fun hin => hnot (List.mem_cons_of_mem _ hin)
    exact ⟨hclean.rows, hclean.counts⟩

/-- A transaction that is taken back: what it dropped is there again, and is pending. -/
theorem Books.takenBack (h : Books bound s owners pending) {store : SqliteObjectStore} (hdrops : Drops may s store)
    (howned : ∀ token, may token → token ∈ owners ∧ pending' token)
    (hle : ∀ token, pending token → pending' token) :
    Books bound (SqliteObjectStore.rollback s store) owners pending' := by
  have hcounts (token : Nat) (hcounted : s.Counted token)
      (hsame : store.stagedBytesByToken.get? token = s.stagedBytesByToken.get? token) :
      (SqliteObjectStore.rollback s store).Counted token := by
    have hcount : store.tally.count token = s.tally.count token := congrArg (Option.getD · 0) hsame
    exact Eq.trans hcounted hcount.symm
  refine ⟨h.nodup, fun token htoken => hdrops.tokens ▸ h.issued token htoken, fun token hnot => ?_,
    fun token => ?_, hdrops.addsUp h.addsUp, hdrops.within h.within, hdrops.bound.trans h.bound⟩
  · have hclean := h.clean token hnot
    exact ⟨hclean.rows, (hdrops.counts token fun hmay => hnot (howned token hmay).1).trans hclean.counts⟩
  · by_cases hmay : may token
    · rcases hdrops.fewer token with hsame | hnone
      · rcases h.counted token with hcounted | ⟨htoken, hnone⟩
        · exact .inl (hcounts token hcounted hsame)
        · exact .inr ⟨hle token htoken, hsame.trans hnone⟩
      · exact .inr ⟨(howned token hmay).2, hnone⟩
    · have hsame := hdrops.counts token hmay
      rcases h.counted token with hcounted | ⟨htoken, hnone⟩
      · exact .inl (hcounts token hcounted hsame)
      · exact .inr ⟨hle token htoken, hsame.trans hnone⟩

/-! ## Puts and preparations -/

section Lists

variable {α β : Type} {l : List α} {i j : Nat} {a b : α}

theorem get?_set_cases (h : (l.set i a)[j]? = some b) : (j = i ∧ b = a) ∨ (j ≠ i ∧ l[j]? = some b) := by
  rw [List.getElem?_set] at h
  split at h
  · next heq =>
      split at h
      · cases h
        exact .inl ⟨heq.symm, rfl⟩
      · cases h
  · next hne => exact .inr ⟨Ne.symm hne, h⟩

theorem get?_set_of {other : α} (h : l[j]? = some b) (hi : l[i]? = some other) :
    (l.set i a)[j]? = some (if j = i then a else b) := by
  rw [List.getElem?_set]
  by_cases heq : i = j
  · rw [if_pos heq, if_pos heq.symm, if_pos (List.getElem?_eq_some_iff.mp hi).1]
  · rw [if_neg heq, if_neg (Ne.symm heq), h]

theorem map_set_same {f : α → β} (h : l[i]? = some a) (hf : f b = f a) : (l.set i b).map f = l.map f := by
  obtain ⟨hi, rfl⟩ := List.getElem?_eq_some_iff.mp h
  rw [List.map_set, hf, ← List.getElem_map f (h := by rwa [List.length_map]), List.set_getElem_self]

/-- What stands at a place, and the rest. -/
theorem perm_of_get? (h : l[i]? = some a) : l.Perm (a :: l.eraseIdx i) := by
  obtain ⟨hi, rfl⟩ := List.getElem?_eq_some_iff.mp h
  exact (List.getElem_cons_eraseIdx_perm hi).symm

theorem set_perm_of_get? (h : l[i]? = some a) (b : α) : (l.set i b).Perm (b :: l.eraseIdx i) :=
  List.set_perm_cons_eraseIdx (List.getElem?_eq_some_iff.mp h).1 b

end Lists

variable {st st' : Streams.State} {failed finished : List Nat} {i k : Nat} {prepared prepared' : SqlitePreparation}
  {flight flight' : Flight}

theorem inFlight_perm {puts : List (Nat × Flight)} (h : puts[k]? = some (i, flight)) :
    (inFlight puts).Perm ((tokenOf flight).toList ++ inFlight (puts.eraseIdx k)) := by
  refine ((perm_of_get? h).filterMap _).trans ?_
  rw [List.filterMap_cons]
  cases tokenOf flight <;> exact List.Perm.refl _

theorem inFlight_set_perm {puts : List (Nat × Flight)} (h : puts[k]? = some (i, flight)) (flight' : Flight) :
    (inFlight (puts.set k (i, flight'))).Perm ((tokenOf flight').toList ++ inFlight (puts.eraseIdx k)) := by
  refine ((set_perm_of_get? h (i, flight')).filterMap _).trans ?_
  rw [List.filterMap_cons]
  cases tokenOf flight' <;> exact List.Perm.refl _

theorem heldTokens_perm {preparations : List SqlitePreparation} (h : preparations[i]? = some prepared) :
    (heldTokens preparations).Perm (prepared.tokens ++ heldTokens (preparations.eraseIdx i)) :=
  (perm_of_get? h).flatMap_right _

theorem heldTokens_set_perm {preparations : List SqlitePreparation} (h : preparations[i]? = some prepared)
    (prepared' : SqlitePreparation) :
    (heldTokens (preparations.set i prepared')).Perm
      (prepared'.tokens ++ heldTokens (preparations.eraseIdx i)) :=
  (set_perm_of_get? h prepared').flatMap_right _

theorem heldTokens_set_same {preparations : List SqlitePreparation} (h : preparations[i]? = some prepared)
    (htokens : prepared'.tokens = prepared.tokens) :
    heldTokens (preparations.set i prepared') = heldTokens preparations := by
  rw [heldTokens, heldTokens, List.flatMap_def, List.flatMap_def, map_set_same h htokens]

theorem mem_heldTokens {preparations : List SqlitePreparation} {token : Nat}
    (h : preparations[i]? = some prepared) (htoken : token ∈ prepared.tokens) :
    token ∈ heldTokens preparations :=
  List.mem_flatMap.mpr ⟨prepared, List.mem_of_getElem? h, htoken⟩

/-- No two preparations hold one token. -/
theorem heldTokens_disjoint {preparations : List SqlitePreparation} {j token : Nat}
    (hnodup : (heldTokens preparations).Nodup) (h : preparations[i]? = some prepared)
    (h' : preparations[j]? = some prepared') (hne : j ≠ i) (htoken : token ∈ prepared.tokens) :
    token ∉ prepared'.tokens := by
  intro htoken'
  have hrest : prepared' ∈ preparations.eraseIdx i :=
    List.mem_eraseIdx_iff_getElem?.mpr ⟨j, hne, h'⟩
  have hsplit := (heldTokens_perm h).nodup_iff.mp hnodup
  exact (List.disjoint_of_nodup_append hsplit) htoken (List.mem_flatMap.mpr ⟨prepared', hrest, htoken'⟩)

/-! ## What holds of a store's life -/

/-- A publication that lasts: it is not over, or its commit resolved. -/
def Published (prepared : SqlitePreparation) : Prop :=
  prepared.phase = .published ∨ prepared.forgives = true

/-- What a failed publication may have dropped. -/
def Pending (preparations : List SqlitePreparation) (failed : List Nat) (token : Nat) : Prop :=
  ∃ i ∈ failed, ∃ prepared, preparations[i]? = some prepared ∧ token ∈ prepared.tokens

structure Sound (bound : Nat) (st : Streams.State) (failed finished : List Nat) : Prop where
  books : Books bound st.store (owned st) (Pending st.preparations failed)
  known : ∀ put ∈ st.puts, put.1 < st.preparations.length
  reading : ∀ (i : Nat) (prepared : SqlitePreparation), st.preparations[i]? = some prepared →
    prepared.reading = (st.puts.map Prod.fst).count i
  published : ∀ (i : Nat) (prepared : SqlitePreparation), st.preparations[i]? = some prepared →
    Published prepared →
    prepared.reading = 0 ∧ (i ∉ failed → ∀ token ∈ prepared.tokens, st.store.Clean token)
  forgives : ∀ (i : Nat) (prepared : SqlitePreparation), st.preparations[i]? = some prepared →
    prepared.forgives = true → prepared.phase = .ended
  failed : ∀ i ∈ failed, ∃ prepared : SqlitePreparation, st.preparations[i]? = some prepared ∧
    prepared.phase ≠ .staging ∧ prepared.forgives = false
  finished : ∀ i ∈ finished, ∃ prepared : SqlitePreparation, st.preparations[i]? = some prepared ∧
    prepared.phase = .ended ∧ prepared.reading = 0 ∧ prepared.staged = .empty

theorem tokens_of_staged (h : prepared'.staged = prepared.staged) : prepared'.tokens = prepared.tokens := by
  rw [SqlitePreparation.tokens, h, SqlitePreparation.tokens]

theorem tokens_alike (h : Alike prepared prepared') : prepared'.tokens = prepared.tokens :=
  tokens_of_staged h.staged

theorem Published.of_alike (h : Alike prepared prepared') (hpublished : Published prepared') :
    Published prepared := by
  rw [Published, ← h.phase, ← h.forgives]
  exact hpublished

theorem owned_disjoint (hnodup : (owned st).Nodup) {token : Nat} (h : token ∈ inFlight st.puts) :
    token ∉ heldTokens st.preparations := fun hheld =>
  List.disjoint_of_nodup_append hnodup h hheld

/-- A put in flight is one its preparation waits for. -/
theorem Sound.reads (h : Sound bound st failed finished) (hk : st.puts[k]? = some (i, flight))
    (hi : st.preparations[i]? = some prepared) : prepared.reading ≠ 0 := by
  rw [h.reading i prepared hi]
  exact Nat.ne_of_gt (List.count_pos_iff.mpr (List.mem_map.mpr ⟨_, List.mem_of_getElem? hk, rfl⟩))

/-- A step that leaves the staging alone, and what is said of each preparation. -/
theorem Sound.alike (h : Sound bound st failed finished) (hi : st.preparations[i]? = some prepared)
    (halike : Alike prepared prepared') (hidle : Idle st.store st'.store) (hputs : st'.puts = st.puts)
    (hpreparations : st'.preparations = st.preparations.set i prepared') : Sound bound st' failed finished := by
  have hget : ∀ (j : Nat) q', st'.preparations[j]? = some q' → ∃ q, st.preparations[j]? = some q ∧ Alike q q' := by
    intro j q' hj
    rw [hpreparations] at hj
    rcases get?_set_cases hj with ⟨rfl, rfl⟩ | ⟨-, hj⟩
    · exact ⟨prepared, hi, halike⟩
    · exact ⟨q', hj, .refl q'⟩
  have hset : ∀ (j : Nat) q, st.preparations[j]? = some q → ∃ q', st'.preparations[j]? = some q' ∧ Alike q q' := by
    intro j q hj
    rw [hpreparations, get?_set_of hj hi]
    split
    · next heq =>
        subst heq
        rw [hi] at hj
        cases hj
        exact ⟨_, rfl, halike⟩
    · exact ⟨q, rfl, .refl q⟩
  have hheld : heldTokens st'.preparations = heldTokens st.preparations :=
    hpreparations ▸ heldTokens_set_same hi (tokens_alike halike)
  have howned : owned st' = owned st := by rw [owned, hputs, hheld, owned]
  refine ⟨?_, fun put hput => ?_, fun j q' hj => ?_, fun j q' hj hpublished => ?_, fun j q' hj hforgives => ?_,
    fun j hj => ?_, fun j hj => ?_⟩
  · rw [howned]
    refine (h.books.idle hidle).pending_mono fun token ⟨j, hj, q, hq, htoken⟩ => ?_
    obtain ⟨q', hq', hqq'⟩ := hset j q hq
    exact ⟨j, hj, q', hq', (tokens_alike hqq').symm ▸ htoken⟩
  · rw [hpreparations, List.length_set]
    exact h.known put (hputs ▸ hput)
  · obtain ⟨q, hq, hqq'⟩ := hget j q' hj
    rw [hputs, hqq'.reading]
    exact h.reading j q hq
  · obtain ⟨q, hq, hqq'⟩ := hget j q' hj
    obtain ⟨hreading, hclean⟩ := h.published j q hq (hpublished.of_alike hqq')
    refine ⟨hqq'.reading.trans hreading, fun hnot token htoken => ?_⟩
    exact hidle.clean id (hclean hnot token (tokens_alike hqq' ▸ htoken))
  · obtain ⟨q, hq, hqq'⟩ := hget j q' hj
    exact hqq'.phase.trans (h.forgives j q hq (hqq'.forgives.symm.trans hforgives))
  · obtain ⟨q, hq, hphase, hforgives⟩ := h.failed j hj
    obtain ⟨q', hq', hqq'⟩ := hset j q hq
    exact ⟨q', hq', hqq'.phase ▸ hphase, hqq'.forgives.trans hforgives⟩
  · obtain ⟨q, hq, hphase, hreading, hstaged⟩ := h.finished j hj
    obtain ⟨q', hq', hqq'⟩ := hset j q hq
    exact ⟨q', hq', hqq'.phase.trans hphase, hqq'.reading.trans hreading, hqq'.staged.trans hstaged⟩

/-- A step of the store alone. -/
theorem Sound.idle (h : Sound bound st failed finished) (hidle : Idle st.store st'.store) (hputs : st'.puts = st.puts)
    (hpreparations : st'.preparations = st.preparations) : Sound bound st' failed finished := by
  have howned : owned st' = owned st := by rw [owned, hputs, hpreparations, owned]
  refine ⟨?_, ?_, ?_, ?_, ?_, ?_, ?_⟩
  · rw [howned, hpreparations]
    exact h.books.idle hidle
  · rw [hputs, hpreparations]
    exact h.known
  · rw [hputs, hpreparations]
    exact h.reading
  · rw [hpreparations]
    intro j q hq hpublished
    obtain ⟨hreading, hclean⟩ := h.published j q hq hpublished
    exact ⟨hreading, fun hnot token htoken => hidle.clean id (hclean hnot token htoken)⟩
  · rw [hpreparations]
    exact h.forgives
  · rw [hpreparations]
    exact h.failed
  · rw [hpreparations]
    exact h.finished

/-! ## Puts -/

/-- A preparation that another takes no part in keeps what it published clean. -/
theorem Sound.published_of_touches (h : Sound bound st failed finished) (htouches : Touches may st.store s')
    (hmay : ∀ token, may token → token ∉ heldTokens st.preparations) (hi : st.preparations[i]? = some prepared)
    (hpublished : Published prepared) :
    prepared.reading = 0 ∧ (i ∉ failed → ∀ token ∈ prepared.tokens, s'.Clean token) := by
  obtain ⟨hreading, hclean⟩ := h.published i prepared hi hpublished
  refine ⟨hreading, fun hnot token htoken => htouches.clean (fun hin => ?_) (hclean hnot token htoken)⟩
  exact hmay token hin (mem_heldTokens hi htoken)

/-- A step that stages under the token of a put, or drops what it staged. -/
theorem Sound.staging (h : Sound bound st failed finished) {token : Nat} (hk : st.puts[k]? = some (i, flight))
    (htoken : tokenOf flight = some token) (htouches : Touches (· = token) st.store st'.store)
    (hflight : tokenOf flight' = some token ∨ (tokenOf flight' = none ∧ st'.store.Clean token))
    (hputs : st'.puts = st.puts.set k (i, flight')) (hpreparations : st'.preparations = st.preparations) :
    Sound bound st' failed finished := by
  have hin : token ∈ inFlight st.puts := by
    rw [(inFlight_perm hk).mem_iff, htoken]
    exact List.mem_append_left _ (List.mem_singleton.mpr rfl)
  have hheld : token ∉ heldTokens st.preparations := owned_disjoint h.books.nodup hin
  have hbooks : Books bound st'.store (owned st) (Pending st.preparations failed) := by
    refine h.books.touches htouches (fun other heq => heq ▸ List.mem_append_left _ hin) ?_
    rintro other rfl ⟨j, -, q, hq, htoken⟩
    exact absurd (mem_heldTokens hq htoken) hheld
  have hfst : (st.puts.set k (i, flight')).map Prod.fst = st.puts.map Prod.fst :=
    map_set_same hk rfl
  refine ⟨?_, fun put hput => ?_, ?_, ?_, ?_, ?_, ?_⟩
  · rw [owned, hputs, hpreparations]
    have hold : (owned st).Perm ([token] ++ (inFlight (st.puts.eraseIdx k) ++ heldTokens st.preparations)) := by
      refine ((inFlight_perm hk).append_right _).trans ?_
      rw [htoken, List.append_assoc]
      exact List.Perm.refl _
    have hnew := ((inFlight_set_perm hk flight').append_right (heldTokens st.preparations)).symm
    rw [List.append_assoc] at hnew
    rcases hflight with hsame | ⟨hnone, hclean⟩
    · rw [hsame] at hnew
      exact (hbooks.perm hold).perm hnew
    · rw [hnone] at hnew
      refine ((hbooks.perm hold).release (fun other hother => ?_) fun other => .inr).perm hnew
      exact List.mem_singleton.mp hother ▸ hclean
  · rw [hpreparations]
    rw [hputs] at hput
    have hmem : put.1 ∈ st.puts.map Prod.fst := hfst ▸ List.mem_map_of_mem hput
    obtain ⟨other, hother, heq⟩ := List.mem_map.mp hmem
    exact heq ▸ h.known other hother
  · rw [hputs, hpreparations, hfst]
    exact h.reading
  · rw [hpreparations]
    intro j q hq hpublished
    exact h.published_of_touches htouches (fun other heq => heq ▸ hheld) hq hpublished
  · rw [hpreparations]
    exact h.forgives
  · rw [hpreparations]
    exact h.failed
  · rw [hpreparations]
    exact h.finished

/-- A step of one preparation, from what it leaves of that one and of the accounts. -/
theorem Sound.set {failed' finished' : List Nat} (h : Sound bound st failed finished)
    (hi : st.preparations[i]? = some prepared)
    (hpreparations : st'.preparations = st.preparations.set i prepared')
    (hbooks : Books bound st'.store (owned st') (Pending st'.preparations failed'))
    (hputs : ∀ j, (st'.puts.map Prod.fst).count j =
      if j = i then prepared'.reading else (st.puts.map Prod.fst).count j)
    (hclean : ∀ token ∈ heldTokens st.preparations, token ∉ prepared.tokens → st.store.Clean token →
      st'.store.Clean token)
    (hpublished : Published prepared' →
      prepared'.reading = 0 ∧ (i ∉ failed' → ∀ token ∈ prepared'.tokens, st'.store.Clean token))
    (hforgives : prepared'.forgives = true → prepared'.phase = .ended)
    (hfailed : i ∈ failed' → prepared'.phase ≠ .staging ∧ prepared'.forgives = false)
    (hfailed' : ∀ j, j ≠ i → (j ∈ failed' ↔ j ∈ failed))
    (hover : i ∈ finished' → prepared'.phase = .ended ∧ prepared'.reading = 0 ∧ prepared'.staged = .empty)
    (hover' : ∀ j, j ≠ i → j ∈ finished' → j ∈ finished) : Sound bound st' failed' finished' := by
  have hlength : i < st.preparations.length := (List.getElem?_eq_some_iff.mp hi).1
  have hset : st'.preparations[i]? = some prepared' := by
    rw [hpreparations, get?_set_of hi hi, if_pos rfl]
  have hget : ∀ (j : Nat) q, st'.preparations[j]? = some q →
      (j = i ∧ q = prepared') ∨ (j ≠ i ∧ st.preparations[j]? = some q) := fun j q hq =>
    get?_set_cases (hpreparations ▸ hq)
  have hother : ∀ (j : Nat) q, j ≠ i → st.preparations[j]? = some q → st'.preparations[j]? = some q := by
    intro j q hne hq
    rw [hpreparations, get?_set_of hq hi, if_neg hne]
  refine ⟨hbooks, fun put hput => ?_, fun j q hq => ?_, fun j q hq hlasts => ?_, fun j q hq => ?_,
    fun j hj => ?_, fun j hj => ?_⟩
  · rw [hpreparations, List.length_set]
    by_cases hput' : put.1 = i
    · exact hput' ▸ hlength
    · have hcount := List.count_pos_iff.mpr (List.mem_map_of_mem (f := Prod.fst) hput)
      rw [hputs, if_neg hput', List.count_pos_iff] at hcount
      obtain ⟨other, hother, heq⟩ := List.mem_map.mp hcount
      exact heq ▸ h.known other hother
  · rw [hputs]
    rcases hget j q hq with ⟨rfl, rfl⟩ | ⟨hne, hq⟩
    · rw [if_pos rfl]
    · rw [if_neg hne, h.reading j q hq]
  · rcases hget j q hq with ⟨rfl, rfl⟩ | ⟨hne, hq⟩
    · exact hpublished hlasts
    · obtain ⟨hreading, hkept⟩ := h.published j q hq hlasts
      refine ⟨hreading, fun hnot token htoken => ?_⟩
      have hnot' : token ∉ prepared.tokens :=
        heldTokens_disjoint (List.nodup_append.mp h.books.nodup).2.1 hq hi (Ne.symm hne) htoken
      exact hclean token (mem_heldTokens hq htoken) hnot'
        (hkept (fun hin => hnot ((hfailed' j hne).mpr hin)) token htoken)
  · rcases hget j q hq with ⟨rfl, rfl⟩ | ⟨hne, hq⟩
    · exact hforgives
    · exact h.forgives j q hq
  · by_cases hne : j = i
    · subst hne
      exact ⟨prepared', hset, hfailed hj⟩
    · obtain ⟨q, hq, hfacts⟩ := h.failed j ((hfailed' j hne).mp hj)
      exact ⟨q, hother j q hne hq, hfacts⟩
  · by_cases hne : j = i
    · subst hne
      exact ⟨prepared', hset, hover hj⟩
    · obtain ⟨q, hq, hfacts⟩ := h.finished j (hover' j hne hj)
      exact ⟨q, hother j q hne hq, hfacts⟩

/-- What is pending where one preparation is another. -/
theorem Pending.set {failed' : List Nat} {token : Nat} (h : Pending st.preparations failed token)
    (hi : st.preparations[i]? = some prepared) (hfailed : ∀ j ∈ failed, j ∈ failed')
    (htokens : token ∈ prepared.tokens → token ∈ prepared'.tokens) :
    Pending (st.preparations.set i prepared') failed' token := by
  obtain ⟨j, hj, q, hq, htoken⟩ := h
  refine ⟨j, hfailed j hj, _, get?_set_of hq hi, ?_⟩
  split
  · next heq =>
      subst heq
      rw [hi] at hq
      cases hq
      exact htokens htoken
  · exact htoken

/-- A preparation that still stages is in nothing that failed or ended. -/
theorem Sound.notYet (h : Sound bound st failed finished) (hi : st.preparations[i]? = some prepared)
    (hstaging : prepared.phase = .staging) : i ∉ failed ∧ i ∉ finished ∧ ¬ Published prepared := by
  refine ⟨fun hin => ?_, fun hin => ?_, fun hpublished => ?_⟩
  · obtain ⟨q, hq, hphase, -⟩ := h.failed i hin
    rw [hi] at hq
    cases hq
    exact hphase hstaging
  · obtain ⟨q, hq, hphase, -⟩ := h.finished i hin
    rw [hi] at hq
    cases hq
    cases hstaging.symm.trans hphase
  · rcases hpublished with hphase | hforgives
    · cases hstaging.symm.trans hphase
    · cases hstaging.symm.trans (h.forgives i prepared hi hforgives)

/-- A put that is taken in. -/
theorem Sound.begins (h : Sound bound st failed finished) (hi : st.preparations[i]? = some prepared)
    {p' : Preparing} {put : SqliteObjectStore.Put}
    (hbegins : SqlitePreparation.Begins ⟨st.store, prepared⟩ p' put) :
    Sound bound { st with
      store := p'.store
      preparations := st.preparations.set i p'.prepared
      puts := st.puts ++ [(i, .reading put)] } failed finished := by
  obtain ⟨store, prepared'⟩ := p'
  obtain ⟨hstaging, htoken, rfl, rfl⟩ : _ ∧ _ ∧ store = _ ∧ prepared' = _ :=
    ⟨hbegins.staging, hbegins.token, hbegins.store, hbegins.prepared⟩
  dsimp only at hstaging htoken ⊢
  obtain ⟨hfailed, hover, hpublished⟩ := h.notYet hi hstaging
  refine h.set hi rfl ?_ (fun j => ?_) (fun token _ _ hclean => ⟨hclean.rows, hclean.counts⟩)
    (fun hlasts => absurd hlasts hpublished) (h.forgives i prepared hi) (fun hin => absurd hin hfailed)
    (fun _ _ => Iff.rfl) (fun hin => absurd hin hover) fun _ _ => id
  · have hheld : heldTokens (st.preparations.set i { prepared with reading := prepared.reading + 1 }) =
        heldTokens st.preparations := heldTokens_set_same hi rfl
    have hperm : ((st.store.tokens + 1) :: owned st).Perm (inFlight (st.puts ++ [(i, .reading put)]) ++
        heldTokens (st.preparations.set i { prepared with reading := prepared.reading + 1 })) := by
      rw [inFlight, List.filterMap_append, hheld, List.append_assoc]
      change List.Perm _ (inFlight st.puts ++ ([put.token] ++ heldTokens st.preparations))
      rw [htoken]
      exact List.perm_middle.symm
    exact ((h.books.begin rfl).perm hperm).pending_mono fun token htoken => htoken.set hi (fun _ => id) id
  · rw [List.map_append, List.count_append]
    split
    · next heq =>
        subst heq
        dsimp only
        rw [h.reading j prepared hi]
        simp
    · next hne => simp [Ne.symm hne]

/-- A put that is over. -/
theorem Sound.settles (h : Sound bound st failed finished) (hk : st.puts[k]? = some (i, .over))
    (hi : st.preparations[i]? = some prepared) :
    Sound bound { st with
      preparations := st.preparations.set i { prepared with reading := prepared.reading - 1 }
      puts := st.puts.eraseIdx k } failed finished := by
  have hreads := h.reads hk hi
  have hnot (hlasts : Published prepared) : False := hreads (h.published i prepared hi hlasts).1
  refine h.set hi rfl ?_ (fun j => ?_) (fun token _ _ hclean => hclean) (fun hlasts => (hnot hlasts).elim)
    (h.forgives i prepared hi) (fun hin => ?_) (fun _ _ => Iff.rfl) (fun hin => ?_) fun _ _ => id
  · have hheld : heldTokens (st.preparations.set i { prepared with reading := prepared.reading - 1 }) =
        heldTokens st.preparations := heldTokens_set_same hi rfl
    have hperm : (owned st).Perm (inFlight (st.puts.eraseIdx k) ++
        heldTokens (st.preparations.set i { prepared with reading := prepared.reading - 1 })) := by
      rw [hheld]
      exact (inFlight_perm hk).append_right _
    exact (h.books.perm hperm).pending_mono fun token htoken => htoken.set hi (fun _ => id) id
  · have hcount := ((perm_of_get? hk).map Prod.fst).count_eq j
    rw [List.map_cons, List.count_cons] at hcount
    split
    · next heq =>
        subst heq
        dsimp only
        rw [h.reading j prepared hi, hcount]
        simp
    · next hne =>
        rw [hcount]
        simp [Ne.symm hne]
  · obtain ⟨q, hq, hfacts⟩ := h.failed i hin
    rw [hi] at hq
    cases hq
    exact hfacts
  · obtain ⟨q, hq, -, hreading, -⟩ := h.finished i hin
    rw [hi] at hq
    cases hq
    exact absurd hreading hreads

theorem tokens_holding (prepared : SqlitePreparation) (object : Staged.Object) :
    (prepared.holding object).tokens.Perm
      (object.token :: (prepared.staged.erase object.cid.text).values.map Staged.Object.token) :=
  (OMap.perm_values_set _ _ _).map Staged.Object.token

/-- What is held of the CID before, and the rest. -/
theorem tokens_perm (prepared : SqlitePreparation) (object : Staged.Object) : prepared.tokens.Perm
    (((prepared.held object).map Staged.Object.token).toList ++
      (prepared.staged.erase object.cid.text).values.map Staged.Object.token) := by
  rw [SqlitePreparation.held]
  cases hheld : prepared.staged.get? object.cid.text with
  | none =>
      rw [OMap.erase_of_notMem (OMap.get?_eq_none.mp hheld)]
      exact List.Perm.refl _
  | some before => exact (OMap.perm_values_erase hheld).map Staged.Object.token

/-- The token of a put goes over to the preparation that holds what it staged, that of what was
held before to none. -/
theorem owned_holding {object : Staged.Object} (hk : st.puts[k]? = some (i, .staged object))
    (hi : st.preparations[i]? = some prepared) : (owned st).Perm
      (((prepared.held object).map Staged.Object.token).toList ++ (inFlight (st.puts.set k (i, .over)) ++
        heldTokens (st.preparations.set i (prepared.holding object)))) := by
  refine List.perm_iff_count.mpr fun token => ?_
  have hputs := (inFlight_perm hk).count_eq token
  have hputs' := (inFlight_set_perm hk .over).count_eq token
  have hheld := (heldTokens_perm hi).count_eq token
  have hheld' := (heldTokens_set_perm hi (prepared.holding object)).count_eq token
  have htokens := (tokens_perm prepared object).count_eq token
  have htokens' := (tokens_holding prepared object).count_eq token
  rw [List.count_append] at hputs hputs' hheld hheld' htokens
  rw [List.count_cons] at htokens'
  rw [owned, List.count_append, List.count_append, List.count_append]
  simp only [tokenOf, Option.toList_some, Option.toList_none, List.count_cons, List.count_nil] at hputs hputs'
  omega

/-- A put whose staging is held: what was staged of the CID before is dropped. -/
theorem Sound.holds (h : Sound bound st failed finished) {object : Staged.Object}
    (hk : st.puts[k]? = some (i, .staged object)) (hi : st.preparations[i]? = some prepared) :
    Sound bound { st with
      store := (SqlitePreparation.hold object ⟨st.store, prepared⟩).2.store
      preparations := st.preparations.set i (SqlitePreparation.hold object ⟨st.store, prepared⟩).2.prepared
      puts := st.puts.set k (i, .over) } failed finished := by
  have hreads := h.reads hk hi
  have hnot (hlasts : Published prepared) : False := hreads (h.published i prepared hi hlasts).1
  have howned := owned_holding hk hi
  have hfst : (st.puts.set k (i, .over)).map Prod.fst = st.puts.map Prod.fst := map_set_same hk rfl
  have htokens (token : Nat) (htoken : token ∈ prepared.tokens) :
      token ∈ ((prepared.held object).map Staged.Object.token).toList ∨
        token ∈ (prepared.holding object).tokens := by
    rcases List.mem_append.mp ((tokens_perm prepared object).mem_iff.mp htoken) with hbefore | hrest
    · exact .inl hbefore
    · exact .inr ((tokens_holding prepared object).mem_iff.mpr (List.mem_cons_of_mem _ hrest))
  have hrun := SqlitePreparation.hold_run object ⟨st.store, prepared⟩
  generalize (SqlitePreparation.hold object ⟨st.store, prepared⟩).2 = p' at hrun ⊢
  obtain ⟨store, prepared'⟩ := p'
  have hstore := congrArg Preparing.store hrun
  obtain rfl : prepared' = prepared.holding object := congrArg Preparing.prepared hrun
  dsimp only at hstore ⊢
  have htouches : Touches (· ∈ ((prepared.held object).map Staged.Object.token).toList) st.store store ∧
      ∀ token ∈ ((prepared.held object).map Staged.Object.token).toList, store.Clean token := by
    cases hheld : prepared.held object with
    | none =>
        rw [hheld] at hstore
        subst hstore
        exact ⟨Std.Refl.refl _, fun _ hin => absurd hin List.not_mem_nil⟩
    | some before =>
        rw [hheld] at hstore
        subst hstore
        refine ⟨(SqliteObjectStore.drop_touches before.token st.store).mono fun token heq => ?_, ?_⟩
        · exact heq ▸ List.mem_singleton.mpr rfl
        · intro token hin
          exact List.mem_singleton.mp hin ▸ SqliteObjectStore.drop_clean before.token st.store
  obtain ⟨htouches, hclean⟩ := htouches
  refine h.set hi rfl ?_ (fun j => ?_) (fun token _ hnot hkept => ?_) (fun hlasts => (hnot hlasts).elim)
    (h.forgives i prepared hi) (fun hin => ?_) (fun _ _ => Iff.rfl) (fun hin => ?_) fun _ _ => id
  · have hbooks := h.books.touches htouches (fun token hin => howned.mem_iff.mpr (List.mem_append_left _ hin))
      fun token hin _ => (hclean token hin).counted
    refine (hbooks.perm howned).release hclean fun token ⟨j, hj, q, hq, htoken⟩ => ?_
    by_cases hne : j = i
    · subst hne
      rw [hi] at hq
      cases hq
      refine (htokens token htoken).imp_right fun hheld => ⟨j, hj, _, get?_set_of hi hi, ?_⟩
      rw [if_pos rfl]
      exact hheld
    · exact .inr ⟨j, hj, q, by rw [get?_set_of hq hi, if_neg hne], htoken⟩
  · rw [hfst]
    split
    · next heq => exact heq ▸ (h.reading i prepared hi).symm
    · rfl
  · refine htouches.clean (fun hin => hnot ?_) hkept
    exact (tokens_perm prepared object).mem_iff.mpr (List.mem_append_left _ hin)
  · obtain ⟨q, hq, hfacts⟩ := h.failed i hin
    rw [hi] at hq
    cases hq
    exact hfacts
  · obtain ⟨q, hq, -, hreading, -⟩ := h.finished i hin
    rw [hi] at hq
    cases hq
    exact absurd hreading hreads

/-! ## Preparations -/

theorem Sound.prepares (h : Sound bound st failed finished) :
    Sound bound { st with preparations := st.preparations ++ [.new] } failed finished := by
  have hget : ∀ (j : Nat) q, (st.preparations ++ [.new])[j]? = some q →
      st.preparations[j]? = some q ∨ (j = st.preparations.length ∧ q = .new) := by
    intro j q hq
    rw [List.getElem?_append] at hq
    split at hq
    · exact .inl hq
    · next hlength =>
        rw [List.getElem?_singleton] at hq
        split at hq
        · cases hq
          exact .inr ⟨by omega, rfl⟩
        · cases hq
  have hkeep : ∀ (j : Nat) q, st.preparations[j]? = some q → (st.preparations ++ [.new])[j]? = some q :=
    fun j q hq => by rw [List.getElem?_append_left (List.getElem?_eq_some_iff.mp hq).1, hq]
  have howned : owned { st with preparations := st.preparations ++ [.new] } = owned st := by
    rw [owned, owned, heldTokens, List.flatMap_append]
    change _ ++ (_ ++ []) = _
    rw [List.append_nil, heldTokens]
  refine ⟨?_, fun put hput => ?_, fun j q hq => ?_, fun j q hq hlasts => ?_, fun j q hq hforgives => ?_,
    fun j hj => ?_, fun j hj => ?_⟩
  · rw [howned]
    exact h.books.pending_mono fun token ⟨j, hj, q, hq, htoken⟩ => ⟨j, hj, q, hkeep j q hq, htoken⟩
  · rw [List.length_append]
    exact Nat.lt_of_lt_of_le (h.known put hput) (Nat.le_add_right _ _)
  · rcases hget j q hq with hq | ⟨rfl, rfl⟩
    · exact h.reading j q hq
    · refine (List.count_eq_zero.mpr fun hin => ?_).symm
      obtain ⟨put, hput, heq⟩ := List.mem_map.mp hin
      exact Nat.lt_irrefl _ (heq ▸ h.known put hput)
  · rcases hget j q hq with hq | ⟨rfl, rfl⟩
    · exact h.published j q hq hlasts
    · rcases hlasts with hphase | hforgives
      · cases hphase
      · cases hforgives
  · rcases hget j q hq with hq | ⟨rfl, rfl⟩
    · exact h.forgives j q hq hforgives
    · cases hforgives
  · obtain ⟨q, hq, hfacts⟩ := h.failed j hj
    exact ⟨q, hkeep j q hq, hfacts⟩
  · obtain ⟨q, hq, hfacts⟩ := h.finished j hj
    exact ⟨q, hkeep j q hq, hfacts⟩

/-- A step of one preparation that takes no put in and settles none. -/
theorem Sound.reading_of (h : Sound bound st failed finished) (hi : st.preparations[i]? = some prepared)
    (hreading : prepared'.reading = prepared.reading) (j : Nat) : (st.puts.map Prod.fst).count j =
      if j = i then prepared'.reading else (st.puts.map Prod.fst).count j := by
  split
  · next heq => rw [heq, hreading, h.reading i prepared hi]
  · rfl

/-- A publication that lands. -/
theorem Sound.publishes (h : Sound bound st failed finished) (hi : st.preparations[i]? = some prepared)
    {p' : Preparing} (hpublishing : SqlitePreparation.Publishing ⟨st.store, prepared⟩ p')
    (hdrops : Drops (· ∈ prepared.tokens) st.store p'.store)
    (hclean : ∀ token ∈ prepared.tokens, p'.store.Clean token) (hstore : st'.store = p'.store)
    (hputs : st'.puts = st.puts) (hpreparations : st'.preparations = st.preparations.set i p'.prepared) :
    Sound bound st' failed finished := by
  have hpublished := hpublishing.published
  have htokens : p'.prepared.tokens = prepared.tokens := tokens_of_staged hpublished.staged
  obtain ⟨hfailed, hover, -⟩ := h.notYet hi hpublishing.staging
  have howned : owned st' = owned st := by
    rw [owned, hputs, hpreparations, heldTokens_set_same hi htokens, owned]
  refine h.set hi hpreparations ?_ (fun j => ?_) (fun token _ hnot hkept => ?_) (fun _ => ⟨?_, fun _ => ?_⟩)
    (fun hforgives => ?_) (fun hin => absurd hin hfailed) (fun _ _ => Iff.rfl) (fun hin => absurd hin hover)
    fun _ _ => id
  · rw [howned, hpreparations, hstore]
    refine (h.books.touches hdrops.toTouches (fun token htoken => ?_) fun token htoken _ =>
      (hclean token htoken).counted).pending_mono fun token htoken => htoken.set hi (fun _ => id) ?_
    · exact List.mem_append_right _ (mem_heldTokens hi htoken)
    · exact fun hin => htokens ▸ hin
  · rw [hputs]
    exact h.reading_of hi hpublished.reading j
  · rw [hstore]
    exact hdrops.toTouches.clean hnot hkept
  · exact hpublished.reading.trans hpublishing.settled
  · rw [htokens, hstore]
    exact hclean
  · exact absurd (h.forgives i prepared hi (hpublished.forgives ▸ hforgives)) fun hended => by
      cases hpublishing.staging.symm.trans hended

/-- A publication whose transaction is taken back. -/
theorem Sound.fails (h : Sound bound st failed finished) (hi : st.preparations[i]? = some prepared)
    {p' : Preparing} {store : SqliteObjectStore}
    (hpublishing : SqlitePreparation.Publishing ⟨st.store, prepared⟩ p')
    (hdrops : Drops (· ∈ prepared.tokens) st.store store)
    (hstore : st'.store = SqliteObjectStore.rollback st.store store)
    (hputs : st'.puts = st.puts) (hpreparations : st'.preparations = st.preparations.set i p'.prepared) :
    Sound bound st' (failed ++ [i]) finished := by
  have hpublished := hpublishing.published
  have htokens : p'.prepared.tokens = prepared.tokens := tokens_of_staged hpublished.staged
  obtain ⟨hfailed, hover, hnot⟩ := h.notYet hi hpublishing.staging
  have hforgives : p'.prepared.forgives = false := by
    cases hforgives : p'.prepared.forgives with
    | false => rfl
    | true => exact absurd (.inr (hpublished.forgives ▸ hforgives)) hnot
  have howned : owned st' = owned st := by
    rw [owned, hputs, hpreparations, heldTokens_set_same hi htokens, owned]
  have hother (j : Nat) (hne : j ≠ i) : j ∈ failed ++ [i] ↔ j ∈ failed := by
    rw [List.mem_append, List.mem_singleton, or_iff_left hne]
  refine h.set hi hpreparations ?_ (fun j => ?_) (fun token _ hnot hkept => ?_)
    (fun _ => ⟨?_, fun hnot => absurd (List.mem_append_right _ (List.mem_singleton.mpr rfl)) hnot⟩)
    (fun hforgives' => ?_) (fun _ => ⟨?_, hforgives⟩) hother (fun hin => absurd hin hover) fun _ _ => id
  · rw [howned, hpreparations, hstore]
    refine h.books.takenBack hdrops (fun token htoken => ⟨?_, ?_⟩) fun token htoken => ?_
    · exact List.mem_append_right _ (mem_heldTokens hi htoken)
    · refine ⟨i, List.mem_append_right _ (List.mem_singleton.mpr rfl), p'.prepared, ?_, htokens ▸ htoken⟩
      rw [get?_set_of hi hi, if_pos rfl]
    · exact htoken.set hi (fun j hj => List.mem_append_left _ hj) fun hin => htokens ▸ hin
  · rw [hputs]
    exact h.reading_of hi hpublished.reading j
  · rw [hstore]
    exact ⟨hkept.rows, (hdrops.counts token hnot).trans hkept.counts⟩
  · exact hpublished.reading.trans hpublishing.settled
  · rw [hforgives] at hforgives'
    cases hforgives'
  · rw [hpublished.phase]
    exact fun hphase => by cases hphase

/-- A commit that is over. It resolves only where what it published lasts. -/
theorem Sound.leaves (h : Sound bound st failed finished) (hi : st.preparations[i]? = some prepared) {resolved : Bool}
    (hphase : prepared.phase ≠ .ended) (hresolved : resolved = true → i ∉ failed) :
    Sound bound { st with preparations := st.preparations.set i (prepared.leaving resolved) } failed finished := by
  have hover : i ∉ finished := fun hin => by
    obtain ⟨q, hq, hended, -⟩ := h.finished i hin
    rw [hi] at hq
    cases hq
    exact hphase hended
  refine h.set hi rfl ?_ (fun j => h.reading_of hi rfl j) (fun _ _ _ hkept => hkept) (fun hlasts => ?_)
    (fun _ => rfl) (fun hin => ⟨fun hstaging => (by cases hstaging), ?_⟩) (fun _ _ => Iff.rfl)
    (fun hin => absurd hin hover) fun _ _ => id
  · have hheld : heldTokens (st.preparations.set i (prepared.leaving resolved)) =
        heldTokens st.preparations := heldTokens_set_same hi rfl
    rw [owned, hheld]
    exact h.books.pending_mono fun token htoken => htoken.set hi (fun _ => id) id
  · rcases hlasts with hended | hforgives
    · cases hended
    · have hpublished := (Bool.and_eq_true_iff.mp hforgives).2
      exact h.published i prepared hi (.inl (eq_of_beq hpublished))
  · cases resolved with
    | false => rfl
    | true => exact absurd hin (hresolved rfl)

/-- A preparation that ends. -/
theorem Sound.finishes (h : Sound bound st failed finished) (hi : st.preparations[i]? = some prepared)
    (hended : prepared.phase = .ended) (hreading : prepared.reading = 0) :
    Sound bound { st with
      store := (SqlitePreparation.finishUp ⟨st.store, prepared⟩).2.store
      preparations := st.preparations.set i (SqlitePreparation.finishUp ⟨st.store, prepared⟩).2.prepared }
      failed (finished ++ [i]) := by
  obtain ⟨store, hrun, hforgives, hdrops⟩ := SqlitePreparation.finishUp_cases ⟨st.store, prepared⟩
  rw [hrun]
  have htouches : Touches (· ∈ prepared.tokens) st.store store ∧ ∀ token ∈ prepared.tokens, store.Clean token := by
    cases hforgives' : prepared.forgives with
    | false => exact hdrops hforgives'
    | true =>
        have hidle : Idle st.store store := hforgives hforgives'
        have hfailed : i ∉ failed := fun hin => by
          obtain ⟨q, hq, -, hnot⟩ := h.failed i hin
          rw [hi] at hq
          cases hq
          rw [hforgives'] at hnot
          cases hnot
        refine ⟨hidle.mono fun _ => False.elim, fun token htoken => ?_⟩
        exact hidle.clean id ((h.published i prepared hi (.inr hforgives')).2 hfailed token htoken)
  obtain ⟨htouches, hclean⟩ := htouches
  have hother (j : Nat) (hne : j ≠ i) (hj : j ∈ finished ++ [i]) : j ∈ finished := by
    rw [List.mem_append, List.mem_singleton] at hj
    exact hj.resolve_right hne
  refine h.set hi rfl ?_ (fun j => h.reading_of hi rfl j) (fun token _ hnot hkept => htouches.clean hnot hkept)
    (fun _ => ⟨hreading, fun _ _ hin => absurd hin List.not_mem_nil⟩) (fun _ => hended) (fun hin => ?_)
    (fun _ _ => Iff.rfl) (fun _ => ⟨hended, hreading, rfl⟩) hother
  · have hperm : (owned st).Perm (prepared.tokens ++
        (inFlight st.puts ++ heldTokens (st.preparations.set i prepared.cleared))) := by
      refine List.perm_iff_count.mpr fun token => ?_
      have hheld := (heldTokens_perm hi).count_eq token
      have hheld' := (heldTokens_set_perm hi prepared.cleared).count_eq token
      have hnone : prepared.cleared.tokens = [] := rfl
      rw [List.count_append] at hheld hheld'
      rw [hnone, List.count_nil] at hheld'
      rw [owned, List.count_append, List.count_append, List.count_append]
      omega
    have hbooks := h.books.touches htouches
      (fun token htoken => List.mem_append_right _ (mem_heldTokens hi htoken))
      fun token htoken _ => (hclean token htoken).counted
    refine (hbooks.perm hperm).release hclean fun token ⟨j, hj, q, hq, htoken⟩ => ?_
    by_cases hne : j = i
    · subst hne
      rw [hi] at hq
      cases hq
      exact .inl htoken
    · exact .inr ⟨j, hj, q, by rw [get?_set_of hq hi, if_neg hne], htoken⟩
  · obtain ⟨q, hq, hfacts⟩ := h.failed i hin
    rw [hi] at hq
    cases hq
    exact hfacts

/-! ## One step -/

section Steps

variable {P : Packages}

open Effect (Keeps)

theorem Sound.goesOn (h : Sound bound st failed finished) {token : Nat} (hk : st.puts[k]? = some (i, flight))
    (htoken : tokenOf flight = some token) {x : SqliteObjectStore.Work Flight}
    (hx : Keeps (Touches (· = token)) x)
    (hok : ∀ s flight' s', x s = (.ok flight', s') → tokenOf flight' = some token) :
    Sound bound (Streams.State.goesOn k i token (st.onStore x)) failed finished := by
  rw [Streams.State.onStore]
  rcases hrun : x st.store with ⟨e | flight', s'⟩
  · have hdrop := SqliteObjectStore.drop_touches token s'
    exact h.staging hk htoken (IsTrans.trans st.store s' _ (hx.run hrun) hdrop)
      (.inr ⟨rfl, SqliteObjectStore.drop_clean token s'⟩) rfl rfl
  · exact h.staging hk htoken (hx.run hrun) (.inl (hok _ _ _ hrun)) rfl rfl

/-- What a preparation refuses. -/
theorem Sound.refused (h : Sound bound st failed finished) (hi : st.preparations[i]? = some prepared) :
    Sound bound { st with preparations := st.preparations.set i prepared } failed finished :=
  h.alike hi (.refl prepared) (Std.Refl.refl _) rfl rfl

theorem Sound.putIn (h : Sound bound st failed finished) (hi : st.preparations[i]? = some prepared)
    {x : SqlitePreparation.Work SqliteObjectStore.Put}
    (hx : (∃ e, x ⟨st.store, prepared⟩ = (.error e, ⟨st.store, prepared⟩)) ∨
      ∃ put p', x ⟨st.store, prepared⟩ = (.ok put, p') ∧
        SqlitePreparation.Begins ⟨st.store, prepared⟩ p' put) :
    Sound bound (Streams.State.begins i (st.through i prepared x)) failed finished := by
  rw [Streams.State.through]
  rcases hx with ⟨e, hrun⟩ | ⟨put, p', hrun, hbegins⟩
  · rw [hrun]
    exact h.refused hi
  · rw [hrun]
    exact h.begins hi hbegins

/-- The transaction a preparation publishes in lands, or it is taken back, or nothing is done. -/
theorem Sound.publication (h : Sound bound st failed finished) (hi : st.preparations[i]? = some prepared)
    (more : Except ObjectError Unit) : Sound bound (st.step P (.publish i more))
      (failed ++ takesBack st (.publish i more)) finished := by
  rw [Streams.State.step, takesBack, hi]
  dsimp only
  rw [Streams.State.through]
  rcases SqlitePreparation.transaction_staging more ⟨st.store, prepared⟩ with ⟨e, hrun⟩ |
    ⟨landed, p', hrun, hpublishing, hdrops, hclean⟩ |
    ⟨e, p', store, hrun, hpublishing, hdrops, hstore⟩
  · rw [hrun]
    dsimp only
    rw [if_neg fun hphase => (by cases hphase.1.symm.trans hphase.2), List.append_nil]
    exact h.refused hi
  · rw [hrun, List.append_nil]
    exact h.publishes hi hpublishing hdrops hclean rfl rfl rfl
  · rw [hrun]
    dsimp only
    rw [if_pos ⟨hpublishing.staging, hpublishing.published.phase⟩]
    exact h.fails hi hpublishing hdrops hstore rfl rfl

/-- A step that takes nothing back and ends nothing. -/
theorem Sound.plain {step : Streams.Step} (htakes : takesBack st step = []) (hends : ends st step = [])
    (h : Sound bound (st.step P step) failed finished) :
    Sound bound (st.step P step) (failed ++ takesBack st step) (finished ++ ends st step) := by
  rw [htakes, hends, List.append_nil, List.append_nil]
  exact h

theorem Sound.step (h : Sound bound st failed finished) {step : Streams.Step}
    (hresolves : ∀ i, step = .leave i true → i ∉ failed) :
    Sound bound (st.step P step) (failed ++ takesBack st step) (finished ++ ends st step) := by
  cases step with
  | publish i more =>
      have hends : ends st (.publish i more) = [] := rfl
      rw [hends, List.append_nil]
      cases hi : st.preparations[i]? with
      | none =>
          rw [Streams.State.step, takesBack, hi, List.append_nil]
          exact h
      | some prepared => exact h.publication hi more
  | finishUp i =>
      have htakes : takesBack st (.finishUp i) = [] := rfl
      rw [htakes, List.append_nil, Streams.State.step, ends]
      cases hi : st.preparations[i]? with
      | none => simpa using h
      | some prepared =>
          dsimp only
          split
          · next hended => exact h.finishes hi hended.1 hended.2
          · simpa using h
  | leave i resolved =>
      refine .plain rfl rfl ?_
      rw [Streams.State.step]
      split
      · next prepared hi =>
          split
          · exact h
          · next hphase => exact h.leaves hi hphase fun hresolved => hresolves i (hresolved ▸ rfl)
      · exact h
  | prepare =>
      exact .plain rfl rfl h.prepares
  | putObject i cid =>
      refine .plain rfl rfl ?_
      rw [Streams.State.step]
      split
      · next prepared hi => exact h.putIn hi (SqlitePreparation.putObject_cases cid _)
      · exact h
  | putRaw i =>
      refine .plain rfl rfl ?_
      rw [Streams.State.step]
      split
      · next prepared hi => exact h.putIn hi (SqlitePreparation.putRaw_cases _)
      · exact h
  | feed k chunk =>
      refine .plain rfl rfl ?_
      rw [Streams.State.step]
      split
      · next i put hk =>
          obtain ⟨hkeeps, htoken⟩ := SqliteObjectStore.feed_touches put chunk
          refine h.goesOn hk rfl (Keeps.bind hkeeps fun _ => Keeps.pure _) fun s flight' s' hrun => ?_
          obtain ⟨put', q, hfeed, hpure⟩ := Effect.bind_ok hrun
          cases hpure
          exact congrArg some (htoken _ _ _ hfeed)
      · exact h
  | finish k =>
      refine .plain rfl rfl ?_
      rw [Streams.State.step]
      split
      · next i put hk =>
          obtain ⟨hkeeps, htoken⟩ := SqliteObjectStore.finish_touches P put
          refine h.goesOn hk rfl (Keeps.bind hkeeps fun _ => Keeps.pure _) fun s flight' s' hrun => ?_
          obtain ⟨object, q, hfinish, hpure⟩ := Effect.bind_ok hrun
          cases hpure
          exact congrArg some (htoken _ _ _ hfinish)
      · exact h
  | abandon k error =>
      refine .plain rfl rfl ?_
      rw [Streams.State.step]
      split
      · next i put hk =>
          exact h.goesOn (x := throw error) hk rfl (Keeps.throw error) fun _ _ _ hrun => by cases hrun
      · exact h
  | hold k =>
      refine .plain rfl rfl ?_
      rw [Streams.State.step]
      split
      · next i object hk =>
          split
          · next prepared hi => exact h.holds hk hi
          · exact h
      · exact h
  | settle k =>
      refine .plain rfl rfl ?_
      rw [Streams.State.step]
      split
      · next i hk =>
          split
          · next prepared hi => exact h.settles hk hi
          · exact h
      · exact h
  | hasPrepared i cid =>
      refine .plain rfl rfl ?_
      rw [Streams.State.step]
      split
      · next prepared hi =>
          obtain ⟨hprepared, hidle⟩ := SqlitePreparation.has_keeps cid ⟨st.store, prepared⟩
          exact h.alike hi (hprepared ▸ .refl _) hidle rfl rfl
      · exact h
  | reuse i cid =>
      refine .plain rfl rfl ?_
      rw [Streams.State.step]
      split
      · next prepared hi =>
          obtain ⟨hstore, halike⟩ := SqlitePreparation.reuse_keeps cid ⟨st.store, prepared⟩
          refine h.alike hi halike ?_ rfl rfl
          exact (congrArg (Idle st.store) hstore).mpr (Std.Refl.refl _)
      · exact h
  | collect keep =>
      refine .plain rfl rfl ?_
      rw [Streams.State.step, Streams.State.onStore]
      have hidle := SqliteObjectStore.collect_idle keep st.store
      rcases hrun : SqliteObjectStore.collect keep st.store with ⟨e | removed, s'⟩
      · rw [hrun] at hidle
        exact h.idle hidle rfl rfl
      · rw [hrun] at hidle
        exact h.idle hidle rfl rfl
  | stat cid =>
      refine .plain rfl rfl ?_
      exact h.idle (Keeps.bind (SqliteObjectStore.sound_idle cid) (fun _ => Keeps.pure _) st.store) rfl rfl
  | has cid =>
      refine .plain rfl rfl ?_
      exact h.idle (Keeps.bind (SqliteObjectStore.sound_idle cid) (fun _ => Keeps.pure _) st.store) rfl rfl
  | open_ cid =>
      refine .plain rfl rfl ?_
      rw [Streams.State.step, Streams.State.onStore]
      have hidle : Keeps Idle (SqliteObjectStore.open_ cid) :=
        Keeps.bind (SqliteObjectStore.sound_idle cid) fun _ => Keeps.pure _
      rcases hrun : SqliteObjectStore.open_ cid st.store with ⟨e | _ | read, s'⟩
      · exact h.idle (hidle.run hrun) rfl rfl
      · exact h.idle (hidle.run hrun) rfl rfl
      · exact h.idle (hidle.run hrun) rfl rfl
  | next_ k =>
      refine .plain rfl rfl ?_
      rw [Streams.State.step]
      split
      · next stream hk =>
          split
          · rw [Streams.State.onStore]
            rcases hrun : SqliteObjectStore.next_ P stream.read st.store with ⟨e | ⟨_ | chunk, read⟩, s'⟩
            · exact h.idle ((SqliteObjectStore.next_idle P stream.read).run hrun) rfl rfl
            · exact h.idle ((SqliteObjectStore.next_idle P stream.read).run hrun) rfl rfl
            · exact h.idle ((SqliteObjectStore.next_idle P stream.read).run hrun) rfl rfl
          · exact h
      · exact h

end Steps

/-! ## A store's life -/

/-- What is counted adds up, and is within the bound. -/
structure Tallied (bound : Nat) (s : SqliteObjectStore) : Prop where
  addsUp : s.tally.AddsUp
  within : s.stagedBytes ≤ s.maxStagedBytes
  bound : s.maxStagedBytes = bound

theorem Books.tallied (h : Books bound s owners pending) : Tallied bound s := ⟨h.addsUp, h.within, h.bound⟩

theorem Tallied.touches (h : Tallied bound s) (htouches : Touches may s s') : Tallied bound s' :=
  ⟨htouches.addsUp h.addsUp, htouches.within h.within, htouches.bound.trans h.bound⟩

section Run

variable {P : Packages}

/-- Over a connection that stopped nothing is counted and nothing uncounted. -/
theorem Tallied.stopped (h : Tallied bound st.store) (step : Streams.Step) :
    Tallied bound (stoppedStep P st step).store := by
  have hputIn {x : SqlitePreparation.Work SqliteObjectStore.Put} (i : Nat) (prepared : SqlitePreparation)
      (hx : (∃ e, x ⟨st.store, prepared⟩ = (.error e, ⟨st.store, prepared⟩)) ∨
        ∃ put p', x ⟨st.store, prepared⟩ = (.ok put, p') ∧
          SqlitePreparation.Begins ⟨st.store, prepared⟩ p' put) :
      Tallied bound (st.through i prepared x).2.store := by
    rw [Streams.State.through]
    rcases hx with ⟨e, hrun⟩ | ⟨put, p', hrun, hbegins⟩
    · rw [hrun]
      exact h
    · rw [hrun]
      have hstore : p'.store = { st.store with tokens := st.store.tokens + 1 } := hbegins.store
      change Tallied bound p'.store
      rw [hstore]
      exact ⟨h.addsUp, h.within, h.bound⟩
  cases step with
  | putObject i cid =>
      rw [stoppedStep]
      split
      · exact h
      · next prepared hi =>
          have hput := hputIn i prepared (SqlitePreparation.putObject_cases cid _)
          split
          · next heq => rwa [heq] at hput
          · next heq => rwa [heq] at hput
  | putRaw i =>
      rw [stoppedStep]
      split
      · exact h
      · next prepared hi =>
          have hput := hputIn i prepared (SqlitePreparation.putRaw_cases _)
          split
          · next heq => rwa [heq] at hput
          · next heq => rwa [heq] at hput
  | feed k chunk =>
      rw [stoppedStep]
      split
      · dsimp only
        split
        · exact h
        · exact h
      · exact h
  | finish k =>
      rw [stoppedStep]
      split
      · split
        · split
          · exact h
          · exact h
        · exact h
      · exact h
  | abandon k error =>
      rw [stoppedStep]
      split
      · exact h
      · exact h
  | hold k =>
      rw [stoppedStep]
      split
      · next i object hk =>
          split
          · exact h
          · next prepared hi =>
              split
              · exact h
              · next hnone =>
                  have hnone : prepared.held object = none := by simpa using hnone
                  have hrun := SqlitePreparation.hold_run object ⟨st.store, prepared⟩
                  dsimp only at hrun
                  rw [hnone] at hrun
                  rw [Streams.State.step, hk]
                  dsimp only
                  rw [hi]
                  exact (congrArg (fun p => Tallied bound p.store) hrun).mpr h
      · exact h
  | settle k =>
      rw [stoppedStep, Streams.State.step]
      split
      · split
        · exact h
        · exact h
      · exact h
  | reuse i cid =>
      rw [stoppedStep, Streams.State.step]
      split
      · next prepared hi =>
          obtain ⟨hstore, -⟩ := SqlitePreparation.reuse_keeps cid ⟨st.store, prepared⟩
          exact (congrArg (Tallied bound) hstore).mpr h
      · exact h
  | leave i resolved =>
      rw [stoppedStep, Streams.State.step]
      split
      · split
        · exact h
        · exact h
      · exact h
  | finishUp i =>
      rw [stoppedStep]
      split
      · exact h
      · next prepared hi =>
          split
          · next hforgives =>
              rw [Streams.State.step, hi]
              dsimp only
              split
              · obtain ⟨store, hrun, hidle, -⟩ := SqlitePreparation.finishUp_cases ⟨st.store, prepared⟩
                rw [Streams.State.through, hrun]
                exact h.touches (hidle hforgives)
              · exact h
          · split
            · exact h
            · exact h
  | _ => exact h

/-- What holds of a store between its turns. -/
structure Good (bound : Nat) (st : State) : Prop where
  tallied : Tallied bound st.streams.store
  sound : st.stopped = false → Sound bound st.streams st.failed st.finished

theorem Sound.good {st : State} (h : Sound bound st.streams st.failed st.finished) : Good bound st :=
  ⟨h.books.tallied, fun _ => h⟩

theorem Good.turn {st : State} (h : Good bound st) (turn : Turn) : Good bound (st.turn P turn) := by
  cases turn with
  | step step =>
      rw [State.turn]
      split
      · exact h
      · next hresolves =>
          split
          · next hstopped =>
              exact ⟨h.tallied.stopped step, fun hopen => by cases hstopped.symm.trans hopen⟩
          · next hopen =>
              have hsound := h.sound (by simpa using hopen)
              refine Sound.good (hsound.step fun i hstep => ?_)
              subst hstep
              simpa [State.resolves] using hresolves
  | loses i landed =>
      rw [State.turn]
      split
      · exact h
      · split
        · exact h
        · next prepared hi =>
            rcases SqlitePreparation.transaction_staging (.ok ()) ⟨st.streams.store, prepared⟩ with
              ⟨e, hrun⟩ | ⟨accepted, p', hrun, -, hdrops, -⟩ | ⟨e, p', store, hrun, -⟩
            · rw [Streams.State.through, hrun]
              exact h
            · rw [Streams.State.through, hrun]
              have htallied := h.tallied.touches hdrops.toTouches
              refine ⟨?_, fun hopen => by cases hopen⟩
              cases landed with
              | true => exact htallied
              | false => exact ⟨htallied.addsUp, htallied.within, htallied.bound⟩
            · rw [Streams.State.through, hrun]
              exact h
  | stops => exact ⟨h.tallied, fun hopen => by cases hopen⟩

theorem Good.run {st : State} (h : Good bound st) (turns : List Turn) : Good bound (st.run P turns) := by
  induction turns generalizing st with
  | nil => exact h
  | cons turn rest ih => exact ih (h.turn turn)

theorem good_opened (writable : Bool) (maxObjectBytes maxStagedBytes tokens : Nat) (objects : List ObjectRow)
    (chunks : List ChunkRow) : Good maxStagedBytes
      (State.new (.opened writable maxObjectBytes maxStagedBytes tokens objects chunks)) := by
  refine Sound.good ⟨⟨List.nodup_nil, fun _ hin => absurd hin List.not_mem_nil, fun token _ => ?_,
    fun token => .inl rfl, rfl, Nat.zero_le _, rfl⟩, fun _ hin => absurd hin List.not_mem_nil,
    fun _ _ hi => (by cases hi), fun _ _ hi => (by cases hi), fun _ _ hi => (by cases hi),
    fun _ hin => absurd hin List.not_mem_nil, fun _ hin => absurd hin List.not_mem_nil⟩
  exact ⟨fun _ hin => absurd hin List.not_mem_nil, rfl⟩

/-! ## The accounts -/

/-- What is staged and not counted was published by a commit that failed and has yet to end. -/
theorem Sound.uncounted (h : Sound bound st failed finished) {chunk : StagedChunk}
    (hchunk : chunk ∈ st.store.tables.staging) (hnot : chunk.token ∉ st.store.stagedBytesByToken.keys)
    (hbytes : chunk.bytes ≠ []) : ∃ i ∈ failed, i ∉ finished ∧
      ∃ prepared, st.preparations[i]? = some prepared ∧ chunk.token ∈ prepared.tokens := by
  rcases h.books.counted chunk.token with hcounted | ⟨⟨i, hi, prepared, hprepared, htoken⟩, -⟩
  · have hrow : (chunk.token, chunk.bytes.length) ∈ st.store.stagedRows := List.mem_map_of_mem hchunk
    have hle := Tally.le_weightOf hrow
    rw [hcounted, Tally.count, SqliteObjectStore.tally, OMap.get?_eq_none.mpr hnot] at hle
    exact absurd (List.eq_nil_of_length_eq_zero (Nat.le_zero.mp hle)) hbytes
  · refine ⟨i, hi, fun hin => ?_, prepared, hprepared, htoken⟩
    obtain ⟨q, hq, -, -, hstaged⟩ := h.finished i hin
    rw [hprepared] at hq
    cases hq
    rw [SqlitePreparation.tokens, hstaged] at htoken
    exact List.not_mem_nil htoken

theorem Sound.stagedSize (h : Sound bound st failed finished) : st.store.stagedSize = st.store.stagedBytes +
    ((st.store.stagedRows.filter fun row => row.1 ∉ st.store.stagedBytesByToken.keys).map Prod.snd).sum := by
  have hadds : st.store.stagedBytes = st.store.stagedBytesByToken.values.sum := h.books.addsUp
  rw [SqliteObjectStore.stagedSize_eq, hadds]
  refine Tally.sum_of_keys fun token hin => ?_
  rcases h.books.counted token with hcounted | ⟨-, hnone⟩
  · exact hcounted
  · exact absurd hin (OMap.get?_eq_none.mp hnone)

/-- Once every preparation has ended, nothing is staged and nothing counted. -/
theorem Sound.ended (h : Sound bound st failed finished) (hover : ∀ i < st.preparations.length, i ∈ finished) :
    st.store.tables.staging = [] ∧ st.store.stagedBytesByToken = .empty ∧ st.store.stagedBytes = 0 := by
  have hputs : st.puts = [] := by
    refine List.eq_nil_iff_forall_not_mem.mpr fun put hput => ?_
    obtain ⟨q, hq, -, hreading, -⟩ := h.finished put.1 (hover put.1 (h.known put hput))
    rw [h.reading put.1 q hq] at hreading
    exact List.count_eq_zero.mp hreading (List.mem_map_of_mem hput)
  have hheld : heldTokens st.preparations = [] := by
    refine List.flatMap_eq_nil_iff.mpr fun prepared hin => ?_
    obtain ⟨i, hi⟩ := List.mem_iff_getElem?.mp hin
    obtain ⟨q, hq, -, -, hstaged⟩ := h.finished i (hover i (List.getElem?_eq_some_iff.mp hi).1)
    rw [hi] at hq
    cases hq
    rw [SqlitePreparation.tokens, hstaged]
    rfl
  have howned : owned st = [] := by
    rw [owned, hputs, hheld]
    rfl
  have hclean (token : Nat) : st.store.Clean token := by
    refine h.books.clean token ?_
    rw [howned]
    exact List.not_mem_nil
  have hcounts : st.store.stagedBytesByToken = .empty := by
    refine OMap.ext_entries (List.eq_nil_iff_forall_not_mem.mpr fun ⟨token, count⟩ hin => ?_)
    have hget := OMap.mem_entries.mp hin
    rw [(hclean token).counts] at hget
    cases hget
  refine ⟨List.eq_nil_iff_forall_not_mem.mpr fun chunk hin => ?_, hcounts, ?_⟩
  · exact (hclean chunk.token).rows _ (List.mem_map_of_mem hin) rfl
  · have hadds : st.store.stagedBytes = st.store.stagedBytesByToken.values.sum := h.books.addsUp
    rw [hadds, hcounts]
    rfl

/-- In every run of a store, what is counted of the staging is the sum of what is counted of each
token, and does not pass the bound. Over a connection that has not stopped the bytes staged are those
counted and those of publications that failed, whose preparations have yet to end; where there are
none of these the two are equal, and once every preparation has ended both are nothing. -/
theorem staging_is_accounted (P : Packages) (writable : Bool) (maxObjectBytes maxStagedBytes tokens : Nat)
    (objects : List ObjectRow) (chunks : List ChunkRow) (turns : List Turn) :
    let st := (State.new (.opened writable maxObjectBytes maxStagedBytes tokens objects chunks)).run P turns
    let store := st.streams.store
    store.stagedBytes = store.stagedBytesByToken.values.sum ∧ store.stagedBytes ≤ maxStagedBytes ∧
      (st.stopped = false →
        (store.stagedSize = store.stagedBytes +
          ((store.stagedRows.filter fun row => row.1 ∉ store.stagedBytesByToken.keys).map Prod.snd).sum) ∧
        (∀ chunk ∈ store.tables.staging, chunk.token ∉ store.stagedBytesByToken.keys → chunk.bytes ≠ [] →
          ∃ i ∈ st.failed, i ∉ st.finished ∧
            ∃ prepared, st.streams.preparations[i]? = some prepared ∧ chunk.token ∈ prepared.tokens) ∧
        ((∀ i ∈ st.failed, i ∈ st.finished) → store.stagedSize = store.stagedBytes) ∧
        ((∀ i < st.streams.preparations.length, i ∈ st.finished) →
          store.tables.staging = [] ∧ store.stagedBytesByToken = .empty ∧ store.stagedBytes = 0)) := by
  intro st store
  have hgood : Good maxStagedBytes st :=
    (good_opened writable maxObjectBytes maxStagedBytes tokens objects chunks).run turns
  have hbound : store.maxStagedBytes = maxStagedBytes := hgood.tallied.bound
  refine ⟨hgood.tallied.addsUp, hbound ▸ hgood.tallied.within, fun hopen => ?_⟩
  have hsound := hgood.sound hopen
  refine ⟨hsound.stagedSize, fun chunk => hsound.uncounted, fun hfailed => ?_, hsound.ended⟩
  have hcounted (token : Nat) : store.Counted token := by
    rcases hsound.books.counted token with hcounted | ⟨⟨i, hi, prepared, hprepared, htoken⟩, -⟩
    · exact hcounted
    · obtain ⟨q, hq, -, -, hstaged⟩ := hsound.finished i (hfailed i hi)
      rw [hprepared] at hq
      cases hq
      rw [SqlitePreparation.tokens, hstaged] at htoken
      exact absurd htoken List.not_mem_nil
  rw [SqliteObjectStore.stagedSize_eq]
  exact (Tally.sum_of_weights hcounted).trans hgood.tallied.addsUp.symm

end Run

section Example

def emptyStore : SqliteObjectStore := .opened true 16 16 0 [] []

theorem pack_short {n : Nat} {bytes : List UInt8} (h : bytes.length < n) :
    SqliteObjectStore.pack n bytes = ([], bytes) := by
  rw [SqliteObjectStore.pack, dif_neg fun hfull => Nat.not_lt.mpr hfull.2 h]

/-- A put that reads its source, and what it has read of it. -/
def readingStore (read : List UInt8) : Streams.State where
  store := { emptyStore with tokens := 1 }
  preparations := [{ SqlitePreparation.new with reading := 1 }]
  puts := [(0, .reading ⟨none, 1, read, 0, read⟩)]
  streams := []
  landings := fun _ => 0

theorem run_append (P : Packages) (st : State) (turns more : List Turn) :
    st.run P (turns ++ more) = (st.run P turns).run P more := List.foldl_append

theorem reads_example : (State.new emptyStore).run examplePackages
    [.step .prepare, .step (.putRaw 0), .step (.feed 0 [1, 2, 3])] = ⟨readingStore [1, 2, 3], [], [], false⟩ := by
  have hpack : SqliteObjectStore.pack CHUNK_BYTES ([] ++ [1, 2, 3]) = ([], [1, 2, 3]) :=
    pack_short (by decide)
  have hfeed : SqliteObjectStore.feed ⟨none, 1, [], 0, []⟩ [1, 2, 3] (readingStore []).store =
      (.ok ⟨none, 1, [1, 2, 3], 0, [1, 2, 3]⟩, (readingStore []).store) := by
    rw [SqliteObjectStore.feed, Effect.read_bind, if_neg (by decide), hpack]
    rfl
  change State.mk (Streams.State.goesOn 0 0 1 (Streams.State.onStore (readingStore []) do
    let put ← SqliteObjectStore.feed ⟨none, 1, [], 0, []⟩ [1, 2, 3]
    pure (Flight.reading put))) [] [] false = _
  rw [Streams.State.onStore, Effect.bind_run hfeed]
  rfl

/-- What was read is staged; the transaction that publishes it is taken back. -/
def rolledBack : List Turn :=
  [.step .prepare, .step (.putRaw 0), .step (.feed 0 [1, 2, 3])] ++
    [.step (.finish 0), .step (.hold 0), .step (.settle 0), .step (.publish 0 (.error (.error [])))]

/-- What was read is staged; the connection stops, and the preparation ends. -/
def cutOff : List Turn :=
  [.step .prepare, .step (.putRaw 0), .step (.feed 0 [1, 2, 3])] ++
    [.step (.finish 0), .step (.hold 0), .step (.settle 0), .stops, .step (.leave 0 false), .step (.finishUp 0)]

/-- A publication taken back is staged again, and not counted; and what was staged over a connection
that stopped stays so. -/
theorem staging_unaccounted :
    (¬ ∀ turns, ((State.new emptyStore).run examplePackages turns).streams.store.stagedSize =
      ((State.new emptyStore).run examplePackages turns).streams.store.stagedBytes) ∧
    ¬ ∀ turns, (∀ i < ((State.new emptyStore).run examplePackages turns).streams.preparations.length,
        i ∈ ((State.new emptyStore).run examplePackages turns).finished) →
      ((State.new emptyStore).run examplePackages turns).streams.store.stagedBytes = 0 := by
  refine ⟨fun hclaim => ?_, fun hclaim => ?_⟩
  · have hequal := hclaim rolledBack
    rw [rolledBack, run_append, reads_example] at hequal
    exact absurd hequal (by decide +kernel)
  · have hnone := hclaim cutOff
    rw [cutOff, run_append, reads_example] at hnone
    exact absurd (hnone (by decide +kernel)) (by decide +kernel)

end Example

end Accounts

end Estoc.EventStore
