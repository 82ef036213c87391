import Estoc.DidPeer.Forms
import Estoc.Lib.SetIndex
import Estoc.Mediator.Tables

/-!
# Live sessions

A session is a connection that stays open. It is bound to the first DID it proves, and the
index finds the open sessions bound to a DID, in either spelling. A host whose sockets outlive
it keeps the state of a session beside the socket, and starts again from there.

A session is named by its place in the order of opening, and keeps its place when its host
starts again.
-/

set_option linter.unusedSectionVars false

namespace Estoc.Mediator

open Json (lit)
open DidPeer (shortOf)

/-- A did:peer:4 is indexed under its short form. -/
def indexed (did : Did) : Did := shortOf did

/-- What a session holds apart from its socket. -/
structure SessionState where
  did : Option Did
  liveDelivery : Bool
  returnRoute : Bool
deriving DecidableEq

namespace SessionState

def fresh : SessionState := ⟨none, false, false⟩

end SessionState

structure LiveSession where
  state : SessionState
  closed : Bool
  /-- What the host keeps beside the socket. -/
  saved : SessionState
deriving DecidableEq

namespace LiveSession

def save (session : LiveSession) : LiveSession :=
  if session.closed then session else { session with saved := session.state }

def setLiveDelivery (value : Bool) (session : LiveSession) : LiveSession :=
  save { session with state := { session.state with liveDelivery := value } }

def setReturnRoute (value : Bool) (session : LiveSession) : LiveSession :=
  save { session with state := { session.state with returnRoute := value } }

def setDid (did : Did) (session : LiveSession) : LiveSession :=
  { session with state := { session.state with did := some did } }

def setClosed (session : LiveSession) : LiveSession := { session with closed := true }

/-- A session as it starts, before it joins the index. -/
def new : Option SessionState → LiveSession
  | none => save ⟨.fresh, false, .fresh⟩
  | some saved => ⟨⟨none, saved.liveDelivery, saved.returnRoute⟩, false, saved⟩

/-- Whose connection it is, while it is open. -/
def key (session : LiveSession) : Option Did :=
  if session.closed then none else session.state.did.map indexed

end LiveSession

structure Sessions where
  /-- Every session there was, in the order of opening. -/
  opened : List LiveSession
  byDid : OMap Did (List Nat)

namespace Sessions

def empty : Sessions := ⟨[], OMap.empty⟩

def change (i : Nat) (f : LiveSession → LiveSession) (s : Sessions) : Sessions :=
  { s with opened := s.opened.modify i f }

def join (i : Nat) (did : Did) (s : Sessions) : Sessions :=
  { s.change i (.setDid did) with byDid := SetIndex.add s.byDid (indexed did) i }

/-- The session joins under the DID it was saved with. -/
def rejoin (i : Nat) (saved : Option SessionState) (s : Sessions) : Sessions :=
  match saved.bind SessionState.did with
  | none => s
  | some did => s.join i did

def openSession (saved : Option SessionState) (s : Sessions) : Sessions :=
  ({ s with opened := s.opened ++ [LiveSession.new saved] }).rejoin s.opened.length saved

def bindFirst (i : Nat) (did : Did) (s : Sessions) : Sessions :=
  match s.opened[i]? with
  | none => s
  | some session =>
    if session.state.did.isSome || session.closed then s else (s.join i did).change i .save

def close (i : Nat) (s : Sessions) : Sessions :=
  match s.opened[i]? with
  | none => s
  | some session =>
    if session.closed then s
    else
      let closed := s.change i .setClosed
      match session.state.did with
      | none => closed
      | some did => { closed with byDid := SetIndex.remove closed.byDid (indexed did) i }

def setLiveDelivery (i : Nat) (value : Bool) (s : Sessions) : Sessions :=
  s.change i (.setLiveDelivery value)

def setReturnRoute (i : Nat) (value : Bool) (s : Sessions) : Sessions :=
  s.change i (.setReturnRoute value)

/-- Starts the session over a socket that outlived its host, from what was kept beside it. -/
def reopen (s : Sessions) (i : Nat) : Sessions :=
  match s.opened[i]? with
  | none => s
  | some session =>
    ({ s with opened := s.opened.set i (LiveSession.new (some session.saved)) }).rejoin i (some session.saved)

/-- The host starts again: its sessions and its index are gone, and the sockets that outlived
it are taken up one by one. -/
def restart (survivors : List Nat) (s : Sessions) : Sessions :=
  survivors.foldl reopen ⟨s.opened.map LiveSession.setClosed, OMap.empty⟩

def liveDelivery (i : Nat) (s : Sessions) : Bool := s.opened[i]?.any (·.state.liveDelivery)

def liveSessionsFor (did : Did) (s : Sessions) : List Nat :=
  (SetIndex.filed s.byDid (indexed did)).filter fun i => s.liveDelivery i

def wantsPush (ownerDid : Did) (s : Sessions) : Bool := !(s.liveSessionsFor ownerDid).isEmpty

/-- Whom a session is indexed under. -/
def key (s : Sessions) (i : Nat) : Option Did := s.opened[i]?.bind LiveSession.key

def didOf (s : Sessions) (i : Nat) : Option Did := s.opened[i]?.bind (·.state.did)

def returnRoute (i : Nat) (s : Sessions) : Bool := s.opened[i]?.any (·.state.returnRoute)

def isOpen (s : Sessions) (i : Nat) : Bool := s.opened[i]?.any (!·.closed)

end Sessions

/-! ## What each operation makes of a session -/

namespace LiveSession

/-- A session that has started: its state is what was saved. -/
def started (saved : Option SessionState) : LiveSession :=
  ⟨saved.getD .fresh, false, saved.getD .fresh⟩

/-- A session that was given a proof. -/
def bound (did : Did) (session : LiveSession) : LiveSession :=
  if session.state.did.isSome || session.closed then session else (session.setDid did).save

theorem started_of_none {saved : Option SessionState} (h : saved.bind SessionState.did = none) :
    started saved = new saved := by
  cases saved with
  | none => rfl
  | some saved =>
      obtain ⟨did, live, route⟩ := saved
      obtain rfl : did = none := h
      rfl

theorem started_of_some {saved : Option SessionState} {did : Did}
    (h : saved.bind SessionState.did = some did) : started saved = (new saved).setDid did := by
  cases saved with
  | none => cases h
  | some saved =>
      obtain ⟨held, live, route⟩ := saved
      obtain rfl : held = some did := h
      rfl

end LiveSession

theorem modify_eq_set {α : Type} {f : α → α} {i : Nat} {l : List α} {x : α} (h : l[i]? = some x) :
    l.modify i f = l.set i (f x) := by
  rw [List.modify_eq_set_getElem?, h]
  rfl

/-- A change that changes nothing where it lands. -/
theorem modify_eq_self {α : Type} {f : α → α} {i : Nat} {l : List α}
    (h : ∀ x, l[i]? = some x → f x = x) : l.modify i f = l := by
  cases hi : l[i]? with
  | none => exact List.modify_eq_self (List.getElem?_eq_none_iff.mp hi)
  | some x =>
      obtain ⟨hlt, hget⟩ := List.getElem?_eq_some_iff.mp hi
      rw [modify_eq_set hi, h x hi, ← hget]
      exact List.set_getElem_self hlt

namespace Sessions

variable {s : Sessions} {i j : Nat} {did : Did} {x : LiveSession}

theorem rejoin_opened (saved : Option SessionState)
    (hi : s.opened[i]? = some (LiveSession.new saved)) :
    (s.rejoin i saved).opened = s.opened.set i (.started saved) := by
  unfold rejoin
  split
  · next hnone =>
      obtain ⟨hlt, hget⟩ := List.getElem?_eq_some_iff.mp hi
      rw [LiveSession.started_of_none hnone, ← hget]
      exact (List.set_getElem_self hlt).symm
  · next did hsome =>
      rw [LiveSession.started_of_some hsome]
      exact modify_eq_set hi

theorem openSession_opened (saved : Option SessionState) :
    (s.openSession saved).opened = s.opened ++ [.started saved] := by
  rw [openSession, rejoin_opened saved (by simp)]
  simp

theorem bindFirst_opened : (s.bindFirst i did).opened = s.opened.modify i (.bound did) := by
  unfold bindFirst
  split
  · next hnone => exact (List.modify_eq_self (List.getElem?_eq_none_iff.mp hnone)).symm
  · next session hsome =>
      split
      · next hkept =>
          refine (modify_eq_self fun x hx => ?_).symm
          obtain rfl : session = x := Option.some.inj (hsome.symm.trans hx)
          exact if_pos hkept
      · next hbinds =>
          show (s.opened.modify i (.setDid did)).modify i .save = _
          rw [List.modify_modify_eq, modify_eq_set hsome, modify_eq_set hsome]
          exact congrArg _ (if_neg hbinds).symm

theorem close_opened : (s.close i).opened = s.opened.modify i .setClosed := by
  unfold close
  split
  · next hnone => exact (List.modify_eq_self (List.getElem?_eq_none_iff.mp hnone)).symm
  · next session hsome =>
      split
      · next hclosed =>
          refine (modify_eq_self fun x hx => ?_).symm
          obtain rfl : session = x := Option.some.inj (hsome.symm.trans hx)
          rw [LiveSession.setClosed, ← hclosed]
      · split <;> rfl

theorem reopen_opened : (s.reopen i).opened =
    s.opened.modify i fun session => .started (some session.saved) := by
  unfold reopen
  split
  · next hnone => exact (List.modify_eq_self (List.getElem?_eq_none_iff.mp hnone)).symm
  · next session hsome =>
      have hlt := (List.getElem?_eq_some_iff.mp hsome).1
      rw [rejoin_opened (some session.saved) (List.getElem?_set_self hlt), modify_eq_set hsome,
        List.set_set]

/-- After a restart the survivors stand as they were saved, and the others are closed. -/
theorem restart_opened (survivors : List Nat) (j : Nat) : (s.restart survivors).opened[j]? =
    s.opened[j]?.map fun session =>
      if j ∈ survivors then .started (some session.saved) else session.setClosed := by
  have hfold (survivors : List Nat) (t : Sessions) (x : LiveSession) (ht : t.opened[j]? = some x) :
      (survivors.foldl reopen t).opened[j]? =
        some (if j ∈ survivors then .started (some x.saved) else x) := by
    induction survivors generalizing t x with
    | nil => exact ht
    | cons i survivors ih =>
        have hnext : (t.reopen i).opened[j]? =
            some (if i = j then .started (some x.saved) else x) := by
          rw [reopen_opened, List.getElem?_modify, ht]
          rfl
        rw [List.foldl_cons, ih _ _ hnext]
        by_cases hij : i = j
        · simp [hij, LiveSession.started]
        · simp [hij, Ne.symm hij]
  cases hj : s.opened[j]? with
  | none =>
      have hlength (survivors : List Nat) (t : Sessions) :
          (survivors.foldl reopen t).opened.length = t.opened.length := by
        induction survivors generalizing t with
        | nil => rfl
        | cons i survivors ih => rw [List.foldl_cons, ih, reopen_opened, List.length_modify]
      rw [restart, Option.map_none, List.getElem?_eq_none_iff, hlength, List.length_map]
      exact List.getElem?_eq_none_iff.mp hj
  | some x =>
      rw [restart, hfold survivors _ x.setClosed (by rw [List.getElem?_map, hj]; rfl)]
      rfl

/-! ## The index -/

end Sessions

namespace LiveSession

variable {did : Did} {x : LiveSession}

/-- What is kept beside an open session is its state. -/
def Kept (x : LiveSession) : Prop := x.closed = false → x.saved = x.state

theorem kept_started (saved : Option SessionState) : (started saved).Kept := fun _ => rfl

theorem kept_save (x : LiveSession) : x.save.Kept := by
  unfold save
  split
  · next hclosed => exact fun hopen => absurd hclosed (by rw [hopen]; exact Bool.false_ne_true)
  · exact fun _ => rfl

theorem kept_setClosed (x : LiveSession) : x.setClosed.Kept := fun h => by cases h

theorem Kept.bound (h : x.Kept) (did : Did) : (x.bound did).Kept := by
  unfold LiveSession.bound
  split
  · exact h
  · exact kept_save _

theorem key_started (saved : Option SessionState) :
    (started saved).key = (saved.bind SessionState.did).map indexed := by
  cases saved <;> rfl

theorem key_save (x : LiveSession) : x.save.key = x.key := by
  unfold save
  split <;> rfl

theorem key_setClosed (x : LiveSession) : x.setClosed.key = none := rfl

theorem key_setLiveDelivery (value : Bool) (x : LiveSession) :
    (x.setLiveDelivery value).key = x.key := key_save _

theorem key_setReturnRoute (value : Bool) (x : LiveSession) :
    (x.setReturnRoute value).key = x.key := key_save _

theorem key_of_binds (did : Did) (h : ¬ (x.state.did.isSome || x.closed) = true) :
    x.key = none ∧ (x.bound did).key = some (indexed did) := by
  simp only [Bool.or_eq_true, not_or, Bool.not_eq_true, Option.isSome_eq_false_iff,
    Option.isNone_iff_eq_none] at h
  rw [bound, h.1, h.2, if_neg (by decide), key_save]
  simp [key, setDid, h.1, h.2]

end LiveSession

namespace Sessions

variable {s : Sessions} {i j : Nat} {did : Did} {x : LiveSession} {key key' : Nat → Option Did}

/-- The index holds the open sessions that are bound, each under its DID. -/
structure Right (s : Sessions) : Prop where
  exact : SetIndex.Exact s.byDid s.key
  kept : ∀ x ∈ s.opened, x.Kept

theorem key_modify (f : LiveSession → LiveSession) {t : Sessions}
    (ht : t.opened = s.opened.modify i f) (j : Nat) :
    t.key j = s.opened[j]?.bind fun x => if i = j then (f x).key else x.key := by
  rw [Sessions.key, ht, List.getElem?_modify]
  cases s.opened[j]? with
  | none => rfl
  | some x => 
      show LiveSession.key (if i = j then f x else x) = _
      rw [apply_ite LiveSession.key]
      rfl

theorem key_of_get (h : s.opened[i]? = some x) : s.key i = x.key := by rw [Sessions.key, h]; rfl

theorem key_modify_ne (f : LiveSession → LiveSession) {t : Sessions}
    (ht : t.opened = s.opened.modify i f) (hji : j ≠ i) : t.key j = s.key j := by
  rw [key_modify f ht, Sessions.key]
  simp only [if_neg (Ne.symm hji)]

theorem kept_modify {f : LiveSession → LiveSession} (h : ∀ x ∈ s.opened, x.Kept)
    (hf : ∀ x : LiveSession, x.Kept → (f x).Kept) : ∀ x ∈ s.opened.modify i f, x.Kept := by
  intro x hx
  obtain ⟨j, hj⟩ := List.mem_iff_getElem?.mp hx
  rw [List.getElem?_modify] at hj
  obtain ⟨y, hy, rfl⟩ := Option.map_eq_some_iff.mp hj
  have hmem := List.mem_of_getElem? hy
  split
  · exact hf y (h y hmem)
  · exact h y hmem

/-- A session that the index held nowhere joins under what it was saved with. -/
theorem exact_rejoin (saved : Option SessionState) (h : SetIndex.Exact s.byDid key)
    (hout : key i = none) (hi : key' i = (saved.bind SessionState.did).map indexed)
    (hrest : ∀ j, j ≠ i → key' j = key j) : SetIndex.Exact (s.rejoin i saved).byDid key' := by
  unfold rejoin
  split
  · next hnone =>
      refine h.congr fun j => ?_
      by_cases hji : j = i
      · rw [hji, hi, hnone, hout]; rfl
      · exact hrest j hji
  · next did hsome => exact h.add hrest hout (by rw [hi, hsome]; rfl)

theorem Right.openSession (h : Right s) (saved : Option SessionState) :
    Right (s.openSession saved) where
  exact := by
    have hopened := openSession_opened (s := s) saved
    have hnew : (s.openSession saved).key s.opened.length = (LiveSession.started saved).key :=
      key_of_get (by rw [hopened, List.getElem?_concat_length])
    refine exact_rejoin saved h.exact ?_ (hnew.trans (LiveSession.key_started saved)) fun j hj => ?_
    · rw [Sessions.key, List.getElem?_eq_none_iff.mpr (le_refl _)]; rfl
    · rw [Sessions.key, hopened, Sessions.key]
      rcases Nat.lt_or_gt_of_ne hj with hlt | hgt
      · rw [List.getElem?_append_left hlt]
      · rw [List.getElem?_eq_none_iff.mpr (by simp; omega), List.getElem?_eq_none_iff.mpr (by omega)]
  kept := by
    rw [openSession_opened]
    intro x hx
    rcases List.mem_append.mp hx with hx | hx
    · exact h.kept x hx
    · rw [List.mem_singleton.mp hx]
      exact LiveSession.kept_started saved

theorem Right.bindFirst (h : Right s) (i : Nat) (did : Did) : Right (s.bindFirst i did) where
  exact := by
    have hopened : (s.bindFirst i did).opened = s.opened.modify i (.bound did) := bindFirst_opened
    have hrest (j : Nat) (hj : j ≠ i) : (s.bindFirst i did).key j = s.key j :=
      key_modify_ne _ hopened hj
    cases hi : s.opened[i]? with
    | none =>
        rw [Sessions.bindFirst, hi]
        exact h.exact
    | some x =>
        have hkey : (s.bindFirst i did).key i = (x.bound did).key := by
          rw [key_modify _ hopened, hi]
          simp
        by_cases hkept : (x.state.did.isSome || x.closed) = true
        · have hsame : s.bindFirst i did = s := by
            rw [Sessions.bindFirst, hi]
            exact if_pos hkept
          rw [hsame]
          exact h.exact
        · obtain ⟨hout, hin⟩ := LiveSession.key_of_binds did hkept
          have hindex : (s.bindFirst i did).byDid = SetIndex.add s.byDid (indexed did) i := by
            rw [Sessions.bindFirst, hi]
            simp only [if_neg hkept]
            rfl
          rw [hindex]
          exact h.exact.add hrest ((key_of_get hi).trans hout) (hkey.trans hin)
  kept := by
    rw [bindFirst_opened]
    exact kept_modify h.kept fun x hx => hx.bound did

theorem Right.close (h : Right s) (i : Nat) : Right (s.close i) where
  exact := by
    have hopened := close_opened (s := s) (i := i)
    have hrest (j : Nat) (hj : j ≠ i) : (s.close i).key j = s.key j := key_modify_ne _ hopened hj
    cases hi : s.opened[i]? with
    | none =>
        rw [Sessions.close, hi]
        exact h.exact
    | some x =>
        have hout : (s.close i).key i = none := by
          rw [key_modify _ hopened, hi]
          simp [LiveSession.key_setClosed]
        by_cases hclosed : x.closed = true
        · rw [Sessions.close, hi]
          simp only [if_pos hclosed]
          exact h.exact
        · have hkey : s.key i = x.state.did.map indexed := by
            rw [key_of_get hi, LiveSession.key, if_neg hclosed]
          cases hdid : x.state.did with
          | none =>
              have hindex : (s.close i).byDid = s.byDid := by
                rw [Sessions.close, hi]
                simp only [if_neg hclosed, hdid]
                rfl
              rw [hindex]
              refine h.exact.congr fun j => ?_
              by_cases hji : j = i
              · rw [hji, hout, hkey, hdid]; rfl
              · exact hrest j hji
          | some did =>
              have hindex : (s.close i).byDid = SetIndex.remove s.byDid (indexed did) i := by
                rw [Sessions.close, hi]
                simp only [if_neg hclosed, hdid]
                rfl
              rw [hindex]
              exact h.exact.remove hrest (by rw [hkey, hdid]; rfl) hout
  kept := by
    rw [close_opened]
    exact kept_modify h.kept fun x _ => LiveSession.kept_setClosed x

/-- A change that leaves open whose connection it is, and saves. -/
theorem Right.change (h : Right s) (i : Nat) {f : LiveSession → LiveSession}
    (hkey : ∀ x : LiveSession, (f x).key = x.key) (hkept : ∀ x : LiveSession, (f x).Kept) :
    Right (s.change i f) where
  exact := by
    refine h.exact.congr fun j => ?_
    rw [key_modify f rfl, Sessions.key]
    simp only [hkey, ite_self]
  kept := kept_modify h.kept fun x _ => hkept x

theorem Right.setLiveDelivery (h : Right s) (i : Nat) (value : Bool) :
    Right (s.setLiveDelivery i value) :=
  h.change i (LiveSession.key_setLiveDelivery value) fun _ => LiveSession.kept_save _

theorem Right.setReturnRoute (h : Right s) (i : Nat) (value : Bool) :
    Right (s.setReturnRoute i value) :=
  h.change i (LiveSession.key_setReturnRoute value) fun _ => LiveSession.kept_save _

/-- A session that the index holds nowhere starts again. -/
theorem exact_reopen (h : SetIndex.Exact s.byDid s.key) (hout : s.key i = none) :
    SetIndex.Exact (s.reopen i).byDid (s.reopen i).key := by
  have hopened := reopen_opened (s := s) (i := i)
  cases hi : s.opened[i]? with
  | none =>
      rw [Sessions.reopen, hi]
      exact h
  | some x =>
      have hkey : (s.reopen i).key i = (LiveSession.started (some x.saved)).key := by
        rw [key_modify _ hopened, hi]
        simp
      have hrejoin : (s.reopen i).byDid = (({ s with
          opened := s.opened.set i (LiveSession.new (some x.saved)) } : Sessions).rejoin i
            (some x.saved)).byDid := by rw [Sessions.reopen, hi]
      rw [hrejoin]
      exact exact_rejoin (some x.saved) h hout (hkey.trans (LiveSession.key_started _))
        fun j hj => key_modify_ne _ hopened hj

/-- A host that starts again finds the sessions it left. -/
theorem right_restart {survivors : List Nat} (honce : survivors.Nodup) :
    Right (s.restart survivors) where
  exact := by
    have hfold (t : Sessions) (ht : SetIndex.Exact t.byDid t.key)
        (hout : ∀ i ∈ survivors, t.key i = none) :
        SetIndex.Exact (survivors.foldl reopen t).byDid (survivors.foldl reopen t).key := by
      induction survivors generalizing t with
      | nil => exact ht
      | cons i survivors ih =>
          obtain ⟨hfirst, honce⟩ := List.nodup_cons.mp honce
          refine ih honce _ (exact_reopen ht (hout i (List.mem_cons_self ..))) fun j hj => ?_
          rw [key_modify_ne _ reopen_opened fun hji : j = i => hfirst (hji ▸ hj)]
          exact hout j (List.mem_cons_of_mem _ hj)
    have hclosed (i : Nat) :
        (⟨s.opened.map LiveSession.setClosed, OMap.empty⟩ : Sessions).key i = none := by
      rw [Sessions.key, List.getElem?_map]
      cases s.opened[i]? <;> rfl
    exact hfold _ (SetIndex.exact_empty.congr hclosed) fun i _ => hclosed i
  kept := by
    intro x hx
    obtain ⟨j, hj⟩ := List.mem_iff_getElem?.mp hx
    rw [restart_opened] at hj
    obtain ⟨y, hy, rfl⟩ := Option.map_eq_some_iff.mp hj
    split
    · exact LiveSession.kept_started _
    · exact LiveSession.kept_setClosed y

/-- A session is bound to a DID, in either spelling. -/
def BoundTo (s : Sessions) (i : Nat) (did : Did) : Prop :=
  ∃ held, s.didOf i = some held ∧ shortOf held = shortOf did

theorem key_eq_some : s.key i = some (indexed did) ↔ s.isOpen i = true ∧ s.BoundTo i did := by
  unfold Sessions.key isOpen BoundTo didOf
  cases hi : s.opened[i]? with
  | none => simp
  | some x => cases hclosed : x.closed <;> simp [LiveSession.key, hclosed, indexed]

theorem Right.mem_filed (h : Right s) :
    i ∈ SetIndex.filed s.byDid (indexed did) ↔ s.isOpen i = true ∧ s.BoundTo i did :=
  (h.exact.filed_iff _ _).trans key_eq_some

theorem Right.mem_liveSessionsFor (h : Right s) :
    i ∈ s.liveSessionsFor did ↔
      s.isOpen i = true ∧ s.BoundTo i did ∧ s.liveDelivery i = true := by
  rw [liveSessionsFor, List.mem_filter, h.mem_filed, and_assoc]

theorem right_empty : Right Sessions.empty where
  exact := SetIndex.exact_empty.congr fun _ => rfl
  kept x hx := by cases hx

/-! ## Whose it is, from one operation to the next -/

theorem didOf_modify {f : LiveSession → LiveSession} {t : Sessions}
    (ht : t.opened = s.opened.modify i f) (hf : ∀ x : LiveSession, (f x).state.did = x.state.did)
    (j : Nat) : t.didOf j = s.didOf j := by
  rw [didOf, ht, List.getElem?_modify, didOf]
  cases s.opened[j]? with
  | none => rfl
  | some x =>
      show (if i = j then f x else x).state.did = x.state.did
      split
      · exact hf x
      · rfl

theorem isOpen_modify {f : LiveSession → LiveSession} {t : Sessions}
    (ht : t.opened = s.opened.modify i f) (hf : ∀ x : LiveSession, x.closed = true → (f x).closed = true)
    (hopen : t.isOpen j = true) : s.isOpen j = true := by
  rw [isOpen, ht, List.getElem?_modify] at hopen
  rw [isOpen]
  cases hj : s.opened[j]? with
  | none =>
      rw [hj] at hopen
      exact hopen
  | some x =>
      rw [hj] at hopen
      cases hclosed : x.closed with
      | false => simp [hclosed]
      | true =>
          have hstill : (if i = j then f x else x).closed = true := by
            split
            · exact hf x hclosed
            · exact hclosed
          rw [show (Option.any (fun x => !x.closed) ((fun a => if i = j then f a else a) <$> some x)) =
            !(if i = j then f x else x).closed from rfl, hstill] at hopen
          cases hopen

theorem state_save (x : LiveSession) : x.save.state = x.state := by
  unfold LiveSession.save
  split <;> rfl

theorem closed_save (x : LiveSession) : x.save.closed = x.closed := by
  unfold LiveSession.save
  split <;> rfl

theorem closed_bound (x : LiveSession) : (x.bound did).closed = x.closed := by
  unfold LiveSession.bound
  split
  · rfl
  · exact closed_save _

theorem didOf_bindFirst (did : Did) (j : Nat) : (s.bindFirst i did).didOf j =
    (s.didOf j).or (if i = j ∧ s.isOpen j = true then some did else none) := by
  rw [didOf, bindFirst_opened, List.getElem?_modify, didOf, isOpen]
  cases hj : s.opened[j]? with
  | none => simp
  | some x =>
      show (if i = j then x.bound did else x).state.did = _
      by_cases hij : i = j
      · rw [if_pos hij]
        unfold LiveSession.bound
        cases hdid : x.state.did with
        | some held => simp [hdid]
        | none =>
            cases hclosed : x.closed with
            | true => simp [hdid, hclosed]
            | false => simp [hij, hdid, hclosed, state_save, LiveSession.setDid]
      · simp [hij]

theorem didOf_openSession (saved : Option SessionState) (j : Nat) : (s.openSession saved).didOf j =
    (s.didOf j).or (if j = s.opened.length then saved.bind SessionState.did else none) := by
  rw [didOf, openSession_opened, didOf]
  rcases Nat.lt_trichotomy j s.opened.length with hlt | rfl | hgt
  · rw [List.getElem?_append_left hlt, if_neg (by omega), Option.or_none]
  · rw [List.getElem?_concat_length, List.getElem?_eq_none_iff.mpr (le_refl _), if_pos rfl]
    cases saved <;> rfl
  · rw [List.getElem?_eq_none_iff.mpr (by simp; omega), List.getElem?_eq_none_iff.mpr (by omega),
      if_neg (by omega)]
    rfl

theorem didOf_close (j : Nat) : (s.close i).didOf j = s.didOf j :=
  didOf_modify close_opened (fun _ => rfl) j

theorem didOf_setLiveDelivery (value : Bool) (j : Nat) :
    (s.setLiveDelivery i value).didOf j = s.didOf j :=
  didOf_modify (f := .setLiveDelivery value) rfl
    (fun x => by rw [LiveSession.setLiveDelivery, state_save]) j

theorem didOf_setReturnRoute (value : Bool) (j : Nat) :
    (s.setReturnRoute i value).didOf j = s.didOf j :=
  didOf_modify (f := .setReturnRoute value) rfl
    (fun x => by rw [LiveSession.setReturnRoute, state_save]) j

/-- What was open is found again as it was. -/
theorem Right.didOf_restart (h : Right s) {survivors : List Nat}
    (hopen : ∀ i ∈ survivors, s.isOpen i = true) (j : Nat) :
    (s.restart survivors).didOf j = s.didOf j := by
  rw [didOf, restart_opened, didOf]
  cases hj : s.opened[j]? with
  | none => rfl
  | some x =>
      show (if j ∈ survivors then LiveSession.started (some x.saved) else x.setClosed).state.did =
        x.state.did
      split
      · next hmem =>
          have hlive := hopen j hmem
          rw [isOpen, hj] at hlive
          have hkept := h.kept x (List.mem_of_getElem? hj) (by simpa using hlive)
          rw [← hkept]
          rfl
      · rfl

/-- What stays so from here on: a session's DID, and that it is closed. -/
structure Later (s t : Sessions) : Prop where
  grows : s.opened.length ≤ t.opened.length
  bound : ∀ i did, s.didOf i = some did → t.didOf i = some did
  closed : ∀ i, i < s.opened.length → t.isOpen i = true → s.isOpen i = true

theorem Later.refl (s : Sessions) : Later s s := ⟨le_refl _, fun _ _ h => h, fun _ _ h => h⟩

theorem Later.trans {t u : Sessions} (h : Later s t) (h' : Later t u) : Later s u where
  grows := h.grows.trans h'.grows
  bound i did hi := h'.bound i did (h.bound i did hi)
  closed i hi hopen := h.closed i hi (h'.closed i (lt_of_lt_of_le hi h.grows) hopen)

theorem later_modify {f : LiveSession → LiveSession} {t : Sessions}
    (ht : t.opened = s.opened.modify i f) (hf : ∀ x : LiveSession, x.closed = true → (f x).closed = true)
    (hdid : ∀ j held, s.didOf j = some held → t.didOf j = some held) : Later s t where
  grows := by rw [ht, List.length_modify]
  bound := hdid
  closed _ _ := isOpen_modify ht hf

theorem later_bindFirst : Later s (s.bindFirst i did) :=
  later_modify bindFirst_opened (fun x hx => (closed_bound x).trans hx) fun j _ hj => by
    rw [didOf_bindFirst, hj]; rfl

theorem later_close : Later s (s.close i) :=
  later_modify close_opened (fun _ _ => rfl) fun j _ hj => (didOf_close j).trans hj

theorem later_setLiveDelivery (value : Bool) : Later s (s.setLiveDelivery i value) :=
  later_modify (s := s) rfl (fun _ hx => (closed_save _).trans hx) fun j _ hj =>
    (didOf_setLiveDelivery value j).trans hj

theorem later_setReturnRoute (value : Bool) : Later s (s.setReturnRoute i value) :=
  later_modify (s := s) rfl (fun _ hx => (closed_save _).trans hx) fun j _ hj =>
    (didOf_setReturnRoute value j).trans hj

theorem later_openSession (saved : Option SessionState) : Later s (s.openSession saved) where
  grows := by rw [openSession_opened]; simp
  bound i did hi := by rw [didOf_openSession, hi]; rfl
  closed i hi hopen := by
    rw [isOpen, openSession_opened, List.getElem?_append_left hi] at hopen
    exact hopen

theorem Right.later_restart (h : Right s) {survivors : List Nat}
    (hopen : ∀ i ∈ survivors, s.isOpen i = true) : Later s (s.restart survivors) where
  grows := by
    by_contra hless
    have hlast : s.opened[(s.restart survivors).opened.length]? ≠ none := by
      rw [ne_eq, List.getElem?_eq_none_iff]
      omega
    have hnone := restart_opened (s := s) survivors (s.restart survivors).opened.length
    rw [List.getElem?_eq_none_iff.mpr (le_refl _)] at hnone
    exact hlast (Option.map_eq_none_iff.mp hnone.symm)
  bound i did hi := by rw [h.didOf_restart hopen, hi]
  closed i _ hlive := by
    by_cases hmem : i ∈ survivors
    · exact hopen i hmem
    · rw [isOpen, restart_opened] at hlive
      cases hi : s.opened[i]? with
      | none =>
          rw [hi] at hlive
          cases hlive
      | some x =>
          rw [hi] at hlive
          simp [hmem, LiveSession.setClosed] at hlive

/-! ## What the switches leave -/

theorem any_modify {f : LiveSession → LiveSession} {t : Sessions} {p : LiveSession → Bool}
    (ht : t.opened = s.opened.modify i f) (hf : ∀ x : LiveSession, i = j → p (f x) = p x) :
    t.opened[j]?.any p = s.opened[j]?.any p := by
  rw [ht, List.getElem?_modify]
  cases s.opened[j]? with
  | none => rfl
  | some x =>
      show p (if i = j then f x else x) = p x
      split
      · next hij => exact hf x hij
      · rfl

theorem isOpen_setReturnRoute (value : Bool) (j : Nat) :
    (s.setReturnRoute i value).isOpen j = s.isOpen j :=
  any_modify (f := .setReturnRoute value) rfl fun x _ => by
    rw [LiveSession.setReturnRoute, closed_save]

theorem liveDelivery_setReturnRoute (value : Bool) (j : Nat) :
    (s.setReturnRoute i value).liveDelivery j = s.liveDelivery j :=
  any_modify (f := .setReturnRoute value) rfl fun x _ => by
    rw [LiveSession.setReturnRoute, state_save]

theorem liveDelivery_setLiveDelivery (value : Bool) (hij : i ≠ j) :
    (s.setLiveDelivery i value).liveDelivery j = s.liveDelivery j :=
  any_modify (f := .setLiveDelivery value) rfl fun _ heq => absurd heq hij

/-- A session that is bound stays as it is. -/
theorem bindFirst_of_bound {held : Did} (h : s.didOf i = some held) : s.bindFirst i did = s := by
  obtain ⟨x, hx, hdid⟩ := Option.bind_eq_some_iff.mp h
  unfold bindFirst
  rw [hx]
  exact if_pos (by rw [hdid]; rfl)

end Sessions

end Estoc.Mediator
