import Estoc.Daemon.Promised
import Estoc.Daemon.Telling

/-!
# The last word

Whether the end is the last thing a session's listeners are told. Where a listener ends it while
others are still to be told what it was told, the end is said first and they are told afterwards.
Otherwise nothing is told after it: what is left to do when it is said is the end told to all, and
saying to nobody what was still to be said.
-/

set_option linter.unusedSectionVars false

namespace Estoc.Daemon

open Json (lit)
open Utf16 (JsString)

/-! ## Whom it is said to -/

namespace Said

variable {Limits S L : Type}

def connection? : Said Limits S L → Option (Connection Limits)
  | .connection said => some said
  | _ => none

def isEnd : Said Limits S L → Bool
  | .connection said => said.isEnd
  | _ => false

theorem connection?_eq_none {said : Said Limits S L} (h : said.kind ≠ .connection) :
    said.connection? = none := by
  cases said with
  | connection connection => exact absurd rfl h
  | state state => rfl
  | lines lines => rfl
  | log line => rfl

theorem isEnd_eq_false {said : Said Limits S L} (h : said.kind ≠ .connection) : said.isEnd = false := by
  cases said with
  | connection connection => exact absurd rfl h
  | state state => rfl
  | lines lines => rfl
  | log line => rfl

end Said

namespace Notified

variable {F Data Input Raw Limits S L V : Type} [DecidableEq F] {sdk : Sdk Data Input Raw Limits S L V}
  {s s' : Notified F Data Limits S L V} {due rest : List (Due F Input Limits S L)} {listener : F}
  {told : List (F × Said Limits S L)}

/-- What a listener was told of the connection. -/
def heard (listener : F) (told : List (F × Said Limits S L)) : List (Connection Limits) :=
  told.filterMap fun entry => if entry.1 = listener then entry.2.connection? else none

/-- The connection as a listener was told it last. -/
def lastHeard (listener : F) (told : List (F × Said Limits S L)) : Connection Limits :=
  (heard listener told).getLast?.getD .connecting

/-- Once someone is told of the end, nobody is told anything but that, and nobody twice; and who
listened to the connection throughout was told last what it is, once all is said. -/
structure LastWord (busy : Reentry.Busy (Notified F Data Limits S L V) (Due F Input Limits S L)) : Prop where
  silent : ∀ {front listener said back}, busy.state.told = front ++ (listener, said) :: back →
    said.isEnd = true → (∀ entry ∈ back, entry.2 = said) ∧ (listener :: back.map Prod.fst).Nodup
  last : busy.due = [] → ∀ listener ∈ busy.state.throughout,
    lastHeard listener busy.state.told = busy.state.session.connection

/-- Nobody is to be told anything by what is left to do, as the listeners are now. -/
def Quiet (s : Notified F Data Limits S L V) (due : List (Due F Input Limits S L)) : Prop :=
  ∀ item ∈ due, match item with
    | .emits said => (s.listeners said.kind).registered = []
    | .tells _ _ => False
    | .does _ => True

/-- What is done next is not the end of a session somebody hears of while somebody is still to be
told what it was saying, nor, once somebody heard of the end, to listen to what is still to be
said. -/
def Considerate (busy : Reentry.Busy (Notified F Data Limits S L V) (Due F Input Limits S L)) : Prop :=
  match busy.due with
  | .does .close :: rest => busy.state.session.ended = true ∨
      (busy.state.listeners .connection).registered = [] ∨ busy.state.Quiet rest
  | .does (.on kind _) :: rest => (∃ entry ∈ busy.state.told, entry.2.isEnd = true) →
      ∀ said, .emits said ∈ rest → said.kind ≠ kind
  | _ => True

/-- What a listener is still to be told of the connection. -/
def Due.hears (listener : F) : Due F Input Limits S L → Option (Connection Limits)
  | .emits said => said.connection?
  | .tells other said => if other = listener then said.connection? else none
  | .does _ => none

def Due.isEnd : Due F Input Limits S L → Bool
  | .emits said => said.isEnd
  | .tells _ said => said.isEnd
  | .does _ => false

/-- Whom it is for. -/
def Due.tellee : Due F Input Limits S L → Option F
  | .tells listener _ => some listener
  | _ => none

/-- Nothing is told by it but the end. -/
def Mute (s : Notified F Data Limits S L V) : Due F Input Limits S L → Prop
  | .emits said => (s.listeners said.kind).registered = []
  | .tells _ said => said = .connection s.session.connection
  | .does _ => True

/-- How far the end has come. -/
inductive Phase (s : Notified F Data Limits S L V) (due : List (Due F Input Limits S L)) : Prop
  | live (ended : s.session.ended = false) (told : ∀ entry ∈ s.told, entry.2.isEnd = false)
      (later : ∀ item ∈ due, item.isEnd = false)
  | announced (ended : s.session.ended = true) (told : ∀ entry ∈ s.told, entry.2.isEnd = false)
      (rest : List (Due F Input Limits S L)) (first : due = .emits (.connection s.session.connection) :: rest)
      (later : ∀ item ∈ rest, item.isEnd = false)
      (quiet : (s.listeners .connection).registered = [] ∨ s.Quiet rest)
  | unheard (ended : s.session.ended = true) (told : ∀ entry ∈ s.told, entry.2.isEnd = false)
      (later : ∀ item ∈ due, item.isEnd = false) (nobody : s.throughout = [])
  | heard (ended : s.session.ended = true) (front : List (F × Said Limits S L)) (back : List F)
      (told : s.told = front ++ back.map fun listener => (listener, .connection s.session.connection))
      (before : ∀ entry ∈ front, entry.2.isEnd = false) (once : (back ++ due.filterMap Due.tellee).Nodup)
      (mute : ∀ item ∈ due, s.Mute item)
      (began : back = [] → ∃ listener said rest, due = .tells listener said :: rest)

structure Stood (s : Notified F Data Limits S L V) (due : List (Due F Input Limits S L)) : Prop where
  stands : Says.Stands s.session
  listens : ∀ listener ∈ s.throughout, listener ∈ (s.listeners .connection).registered
  last : ∀ listener ∈ s.throughout,
    ((heard listener s.told ++ due.filterMap (Due.hears listener)).getLast?).getD .connecting =
      s.session.connection
  phase : Phase s due

/-- Where something stands that nothing before the second part is like. -/
theorem split_first {α : Type} {P : α → Prop} {front back later before : List α} {a : α}
    (h : front ++ later = before ++ a :: back) (hfront : ∀ b ∈ front, ¬ P b) (ha : P a) :
    ∃ mid, later = mid ++ a :: back := by
  obtain ⟨mid, -, hlater⟩ | ⟨mid, hmid, hback⟩ := List.append_eq_append_iff.mp h
  · exact ⟨mid, hlater⟩
  · cases mid with
    | nil => exact ⟨[], hback.symm⟩
    | cons b mid =>
        cases hback
        exact absurd ha (hfront a (by rw [hmid]; exact List.mem_append_right _ (List.mem_cons_self ..)))

theorem Stood.lastWord {busy : Reentry.Busy (Notified F Data Limits S L V) (Due F Input Limits S L)}
    (h : Stood busy.state busy.due) : LastWord busy := by
  refine ⟨fun {front listener said back} htold hend => ?_, fun hdone listener hlistens => ?_⟩
  · have hnot (hno : ∀ entry ∈ busy.state.told, entry.2.isEnd = false) : False := by
      have hsaid := hno (listener, said) (htold ▸ List.mem_append_right _ (List.mem_cons_self ..))
      rw [hend] at hsaid
      cases hsaid
    cases h.phase with
    | live ended told => exact (hnot told).elim
    | announced ended told => exact (hnot told).elim
    | unheard ended told => exact (hnot told).elim
    | heard ended front' back' told before once mute began =>
        obtain ⟨mid, hmid⟩ := split_first (P := fun entry => entry.2.isEnd = true) (told.symm.trans htold)
          (fun entry hentry => by rw [before entry hentry]; exact Bool.false_ne_true) hend
        obtain ⟨first, later, rfl, -, hlater⟩ := List.map_eq_append_iff.mp hmid
        obtain ⟨who, others, rfl, hwho, rfl⟩ := List.map_eq_cons_iff.mp hlater
        cases hwho
        refine ⟨fun entry hentry => ?_, ?_⟩
        · obtain ⟨other, -, rfl⟩ := List.mem_map.mp hentry
          rfl
        · have hone := (List.nodup_append.mp (List.nodup_append.mp once).1).2.1
          rw [List.map_map]
          change (listener :: List.map id others).Nodup
          rw [List.map_id]
          exact hone
  · have hlast := h.last listener hlistens
    rw [hdone, List.filterMap_nil, List.append_nil] at hlast
    exact hlast

/-! ## What is done keeps it -/

theorem filterMap_does {α : Type} {f : Due F Input Limits S L → Option α} (hf : ∀ act, f (.does act) = none)
    (acts : List (Act F Input)) : (acts.map Due.does).filterMap f = [] := by
  rw [List.filterMap_map, List.filterMap_eq_nil_iff]
  exact fun act _ => hf act

theorem hears_self (said : Said Limits S L) :
    (.tells listener said : Due F Input Limits S L).hears listener = said.connection? := if_pos rfl

theorem hears_other {other : F} (h : other ≠ listener) (said : Said Limits S L) :
    (.tells other said : Due F Input Limits S L).hears listener = none := if_neg h

/-- The listeners there are hear what is said to them, each once. -/
theorem hears_snapshot (said : Said Limits S L) {listeners : List F} (hnodup : listeners.Nodup)
    (h : listener ∈ listeners) :
    ((listeners.map fun other => (.tells other said : Due F Input Limits S L)).filterMap
      (Due.hears listener)) = said.connection?.toList := by
  induction listeners with
  | nil => cases h
  | cons other others ih =>
      obtain ⟨hnot, hothers⟩ := List.nodup_cons.mp hnodup
      rw [List.map_cons]
      by_cases heq : other = listener
      · subst heq
        have hnone : (others.map fun other => (.tells other said : Due F Input Limits S L)).filterMap
            (Due.hears other) = [] := by
          rw [List.filterMap_map, List.filterMap_eq_nil_iff]
          intro another hanother
          exact hears_other (ne_of_mem_of_not_mem hanother hnot) said
        cases hsaid : said.connection? with
        | none =>
            rw [List.filterMap_cons_none ((hears_self said).trans hsaid), hnone]
            rfl
        | some connection =>
            rw [List.filterMap_cons_some ((hears_self said).trans hsaid), hnone]
            rfl
      · rw [List.filterMap_cons_none (hears_other heq said)]
        exact ih hothers (List.mem_of_ne_of_mem (Ne.symm heq) h)

theorem Quiet.hears (h : s.Quiet due) (hlistens : listener ∈ (s.listeners .connection).registered) :
    due.filterMap (Due.hears listener) = [] := by
  rw [List.filterMap_eq_nil_iff]
  intro item hitem
  have hquiet := h item hitem
  cases item with
  | does act => rfl
  | tells other said => exact hquiet.elim
  | emits said =>
      refine Said.connection?_eq_none fun hkind => ?_
      have hnone : (s.listeners said.kind).registered = [] := hquiet
      rw [hkind] at hnone
      rw [hnone] at hlistens
      cases hlistens

/-- What leaves the session's connection as it was keeps how far the end has come. -/
theorem Stood.asked {act : Act F Input} {session : Client Data Limits S L V}
    (h : Stood s (.does act :: rest)) (hasked : Says.Asked s.session session) :
    Stood { s with session := session } rest := by
  refine ⟨hasked.stands, h.listens, fun listener hlistens => ?_, ?_⟩
  · exact (h.last listener hlistens).trans hasked.connection.symm
  · cases h.phase with
    | live ended told later =>
        exact .live (hasked.ended.trans ended) told
          fun item hitem => later item (List.mem_cons_of_mem _ hitem)
    | announced ended told rest first later quiet => cases first
    | unheard ended told later nobody =>
        exact .unheard (hasked.ended.trans ended) told
          (fun item hitem => later item (List.mem_cons_of_mem _ hitem)) nobody
    | heard ended front back told before once mute began =>
        refine .heard (hasked.ended.trans ended) front back (hasked.connection ▸ told) before once ?_ ?_
        · intro item hitem
          have hmute := mute item (List.mem_cons_of_mem _ hitem)
          cases item with
          | emits said => exact hmute
          | tells other said => exact hmute.trans (congrArg Said.connection hasked.connection.symm)
          | does act => trivial
        · intro hback
          obtain ⟨_, _, _, hfirst⟩ := began hback
          cases hfirst

theorem Stood.changed {may : BaselineOf S L → Prop} {act : Act F Input}
    {change : Says.Change Data Limits S L V}
    (h : Stood s (.does act :: rest)) (htells : Says.Tells may s.session change)
    (hquiet : s.session.ended = true ∨ (s.listeners .connection).registered = [] ∨ s.Quiet rest) :
    Stood (s.changed change : _ × List (Due F Input Limits S L)).1 ((s.changed change).2 ++ rest) := by
  have hlive (hlive : s.session.ended = false) : (∀ entry ∈ s.told, entry.2.isEnd = false) ∧
      ∀ item ∈ rest, item.isEnd = false := by
    have hnot : ¬ s.session.ended = true := by rw [hlive]; exact Bool.false_ne_true
    cases h.phase with
    | live ended told later => exact ⟨told, fun item hitem => later item (List.mem_cons_of_mem _ hitem)⟩
    | announced ended => exact absurd ended hnot
    | unheard ended => exact absurd ended hnot
    | heard ended => exact absurd ended hnot
  -- Who listened throughout is to be told nothing of the connection by what was left.
  have hrest (hlive : s.session.ended = false) {listener : F} (hlistens : listener ∈ s.throughout) :
      rest.filterMap (Due.hears listener) = [] := by
    have hin := h.listens listener hlistens
    rcases hquiet with hended | hnobody | hquiet
    · rw [hlive] at hended
      cases hended
    · rw [hnobody] at hin
      cases hin
    · exact hquiet.hears hin
  have hlast (hlive : s.session.ended = false) {listener : F} (hlistens : listener ∈ s.throughout)
      (connection : Connection Limits) :
      (heard listener s.told ++ (connection :: rest.filterMap (Due.hears listener))).getLast?.getD
        .connecting = connection := by
    rw [hrest hlive hlistens, List.getLast?_concat]
    rfl
  cases htells with
  | @quiet client' said stands ended connection silent only =>
      by_cases hended : s.session.ended = true
      · obtain rfl := silent hended
        exact h.asked ⟨stands, ended, connection⟩
      · have hended := Bool.eq_false_iff.mpr hended
        refine ⟨stands, h.listens, fun listener hlistens => ?_, ?_⟩
        · have hnone : (said.map fun said => (.emits said : Due F Input Limits S L)).filterMap
              (Due.hears listener) = [] := by
            rw [List.filterMap_map, List.filterMap_eq_nil_iff]
            exact fun x hx => Said.connection?_eq_none (only x hx).1
          have hlast := h.last listener hlistens
          change ((heard listener s.told ++ (said.map Due.emits ++ rest).filterMap
            (Due.hears listener)).getLast?).getD .connecting = client'.connection
          rw [List.filterMap_append, hnone, List.nil_append, connection]
          exact hlast
        · obtain ⟨htold, hlater⟩ := hlive hended
          refine .live (ended.trans hended) htold fun item hitem => ?_
          rcases List.mem_append.mp hitem with hitem | hitem
          · obtain ⟨x, hx, rfl⟩ := List.mem_map.mp hitem
            exact Said.isEnd_eq_false (only x hx).1
          · exact hlater item hitem
  | @attached client' stands live ended baseline given state lines =>
      refine ⟨stands, h.listens, fun listener hlistens => ?_, ?_⟩
      · exact hlast live hlistens _
      · obtain ⟨htold, hlater⟩ := hlive live
        refine .live ended htold fun item hitem => ?_
        rcases List.mem_append.mp hitem with hitem | hitem
        · obtain ⟨x, hx, rfl⟩ := List.mem_map.mp hitem
          simp only [List.mem_cons, List.not_mem_nil, or_false] at hx
          rcases hx with rfl | rfl | rfl
          · exact stands.ended.trans ended
          · rfl
          · rfl
        · exact hlater item hitem
  | @ends client' stands live ended =>
      refine ⟨stands, h.listens, fun listener hlistens => ?_, ?_⟩
      · exact hlast live hlistens _
      · obtain ⟨htold, hlater⟩ := hlive live
        refine .announced ended htold rest rfl hlater (hquiet.resolve_left ?_)
        rw [live]
        exact Bool.false_ne_true

theorem mem_add {listeners : Listeners F} {other : F} (h : listener ∈ listeners.registered) :
    listener ∈ (listeners.add other).registered := by
  unfold Listeners.add
  split
  · exact h
  · exact List.mem_append_left _ h

/-- Nobody is told by what is past the first thing to do, unless it tells. -/
theorem Stood.skip {act : Act F Input} (h : Stood s (.does act :: rest)) : Stood s rest :=
  h.asked ⟨h.stands, rfl, rfl⟩

theorem Stood.add {act : Act F Input} {kind : Kind} {other : F} (h : Stood s (.does act :: rest))
    (hmay : (∃ entry ∈ s.told, entry.2.isEnd = true) → ∀ said, .emits said ∈ rest → said.kind ≠ kind) :
    Stood (s.add kind other) rest := by
  have hskip := h.skip
  refine ⟨h.stands, fun listener hlistens => ?_, hskip.last, ?_⟩
  · have hin := h.listens listener hlistens
    change listener ∈ (if Kind.connection = kind then (s.listeners .connection).add other
      else s.listeners .connection).registered
    split
    · exact mem_add hin
    · exact hin
  · cases h.phase with
    | live ended told later =>
        exact .live ended told fun item hitem => later item (List.mem_cons_of_mem _ hitem)
    | announced ended told rest first later quiet => cases first
    | unheard ended told later nobody =>
        exact .unheard ended told (fun item hitem => later item (List.mem_cons_of_mem _ hitem)) nobody
    | heard ended front back told before once mute began =>
        have hback : back ≠ [] := by
          intro hback
          obtain ⟨_, _, _, hfirst⟩ := began hback
          cases hfirst
        obtain ⟨who, hwho⟩ := List.exists_mem_of_ne_nil _ hback
        have hheard : ∃ entry ∈ s.told, entry.2.isEnd = true := by
          refine ⟨(who, .connection s.session.connection), ?_, h.stands.ended.trans ended⟩
          rw [told]
          exact List.mem_append_right _ (List.mem_map.mpr ⟨who, hwho, rfl⟩)
        refine .heard ended front back told before once (fun item hitem => ?_) fun hnone => absurd hnone hback
        have hmute := mute item (List.mem_cons_of_mem _ hitem)
        cases item with
        | emits said =>
            change (if said.kind = kind then (s.listeners said.kind).add other
              else s.listeners said.kind).registered = []
            rw [if_neg (hmay hheard said hitem)]
            exact hmute
        | tells other said => exact hmute
        | does act => trivial

theorem Stood.delete {act : Act F Input} {kind : Kind} {other : F} (h : Stood s (.does act :: rest)) :
    Stood (s.delete kind other) rest := by
  have hskip := h.skip
  have hthroughout {listener : F} (hin : listener ∈ (s.delete kind other).throughout) :
      listener ∈ s.throughout ∧ (kind = .connection → listener ≠ other) := by
    change listener ∈ (if kind = .connection then s.throughout.filter (· ≠ other) else s.throughout) at hin
    split at hin
    · obtain ⟨hin, hne⟩ := List.mem_filter.mp hin
      exact ⟨hin, fun _ => of_decide_eq_true hne⟩
    · next hkind => exact ⟨hin, fun hkind' => absurd hkind' hkind⟩
  refine ⟨h.stands, fun listener hlistens => ?_, fun listener hlistens => ?_, ?_⟩
  · obtain ⟨hin, hne⟩ := hthroughout hlistens
    change listener ∈ (if Kind.connection = kind then (s.listeners .connection).delete other
      else s.listeners .connection).registered
    split
    · next hkind => exact List.mem_filter.mpr ⟨h.listens listener hin, decide_eq_true (hne hkind.symm)⟩
    · exact h.listens listener hin
  · exact hskip.last listener (hthroughout hlistens).1
  · cases h.phase with
    | live ended told later =>
        exact .live ended told fun item hitem => later item (List.mem_cons_of_mem _ hitem)
    | announced ended told rest first later quiet => cases first
    | unheard ended told later nobody =>
        refine .unheard ended told (fun item hitem => later item (List.mem_cons_of_mem _ hitem)) ?_
        change (if kind = .connection then s.throughout.filter (· ≠ other) else s.throughout) = []
        rw [nobody, List.filter_nil, ite_self]
    | heard ended front back told before once mute began =>
        refine .heard ended front back told before once (fun item hitem => ?_) fun hback => ?_
        · have hmute := mute item (List.mem_cons_of_mem _ hitem)
          cases item with
          | emits said =>
              have hnone : (s.listeners said.kind).registered = [] := hmute
              change (if said.kind = kind then (s.listeners said.kind).delete other
                else s.listeners said.kind).registered = []
              split
              · change (s.listeners said.kind).registered.filter _ = []
                rw [hnone, List.filter_nil]
              · exact hnone
          | tells other said => exact hmute
          | does act => trivial
        · obtain ⟨_, _, _, hfirst⟩ := began hback
          cases hfirst

theorem Stood.act {act : Act F Input} (h : Stood s (.does act :: rest))
    (hmay : Considerate ⟨s, .does act :: rest⟩) (sdk : Sdk Data Input Raw Limits S L V) :
    Stood (s.act sdk act).1 ((s.act sdk act).2 ++ rest) := by
  cases act with
  | call name input => exact h.asked (Says.asked_call h.stands)
  | refresh => exact h.asked (Says.asked_refresh h.stands)
  | connected => exact h.asked (Says.asked_connected h.stands)
  | close => exact h.changed (Says.tells_close h.stands) hmay
  | on kind listener => exact h.add hmay
  | off kind listener => exact h.delete

/-- What is said is told to the listeners there are. -/
theorem Stood.emits {said : Said Limits S L} (h : Stood s (.emits said :: rest)) :
    Stood s (((s.listeners said.kind).registered.map fun listener => .tells listener said) ++ rest) := by
  have hears {listener : F} (hlistens : listener ∈ s.throughout) :
      (((s.listeners said.kind).registered.map fun listener =>
        (.tells listener said : Due F Input Limits S L)) ++ rest).filterMap (Due.hears listener) =
        (.emits said :: rest).filterMap (Due.hears listener) := by
    rw [List.filterMap_append]
    by_cases hkind : said.kind = .connection
    · have hin := h.listens listener hlistens
      rw [← hkind] at hin
      rw [hears_snapshot said (s.listeners said.kind).nodup hin]
      cases hsaid : said.connection? with
      | none =>
          rw [List.filterMap_cons_none (show (Due.emits said).hears listener = none from hsaid)]
          rfl
      | some connection =>
          rw [List.filterMap_cons_some (show (Due.emits said).hears listener = some connection from hsaid)]
          rfl
    · have hsaid := Said.connection?_eq_none hkind
      rw [List.filterMap_cons_none (show (Due.emits said).hears listener = none from hsaid),
        (List.filterMap_eq_nil_iff (l := List.map _ _)).mpr, List.nil_append]
      intro item hitem
      obtain ⟨other, -, rfl⟩ := List.mem_map.mp hitem
      by_cases heq : other = listener
      · rw [heq, hears_self, hsaid]
      · exact hears_other heq said
  refine ⟨h.stands, h.listens, fun listener hlistens => ?_, ?_⟩
  · rw [hears hlistens]
    exact h.last listener hlistens
  · have hend {item : Due F Input Limits S L} (hsaid : said.isEnd = false)
        (hrest : ∀ item ∈ rest, item.isEnd = false)
        (hitem : item ∈
          ((s.listeners said.kind).registered.map fun listener => .tells listener said) ++ rest) :
        item.isEnd = false := by
      rcases List.mem_append.mp hitem with hitem | hitem
      · obtain ⟨other, -, rfl⟩ := List.mem_map.mp hitem
        exact hsaid
      · exact hrest item hitem
    cases h.phase with
    | live ended told later =>
        obtain ⟨hsaid, hrest⟩ := List.forall_mem_cons.mp later
        exact .live ended told fun item hitem => hend hsaid hrest hitem
    | unheard ended told later nobody =>
        obtain ⟨hsaid, hrest⟩ := List.forall_mem_cons.mp later
        exact .unheard ended told (fun item hitem => hend hsaid hrest hitem) nobody
    | announced ended told rest' first later quiet =>
        obtain ⟨hsaid, rfl⟩ := List.cons.inj first
        obtain rfl := Due.emits.inj hsaid
        by_cases hnobody : (s.listeners .connection).registered = []
        · have hthroughout : s.throughout = [] := by
            refine List.eq_nil_iff_forall_not_mem.mpr fun listener hin => ?_
            have hlistens := h.listens listener hin
            rw [hnobody] at hlistens
            cases hlistens
          change Phase s (((s.listeners .connection).registered.map _) ++ rest)
          rw [hnobody, List.map_nil, List.nil_append]
          exact .unheard ended told later hthroughout
        · have hquiet := quiet.resolve_left hnobody
          have hrest : rest.filterMap Due.tellee = [] := by
            rw [List.filterMap_eq_nil_iff]
            intro item hitem
            have hitem := hquiet item hitem
            cases item with
            | emits said => rfl
            | tells other said => exact hitem.elim
            | does act => rfl
          refine .heard ended s.told [] (List.append_nil _).symm told ?_ (fun item hitem => ?_) fun _ => ?_
          · rw [List.nil_append, List.filterMap_append, hrest, List.append_nil, List.filterMap_map]
            have hnodup := (s.listeners .connection).nodup
            rw [← List.filterMap_some (l := (s.listeners .connection).registered)] at hnodup
            exact hnodup
          · rcases List.mem_append.mp hitem with hitem | hitem
            · obtain ⟨other, -, rfl⟩ := List.mem_map.mp hitem
              rfl
            · have hitem := hquiet item hitem
              cases item with
              | emits said => exact hitem
              | tells other said => exact hitem.elim
              | does act => trivial
          · cases hlist : (s.listeners .connection).registered with
            | nil => exact absurd hlist hnobody
            | cons first others =>
                refine ⟨first, .connection s.session.connection,
                  (others.map fun listener => .tells listener (.connection s.session.connection)) ++ rest, ?_⟩
                change ((s.listeners .connection).registered.map _) ++ rest = _
                rw [hlist, List.map_cons, List.cons_append]
    | heard ended front back told before once mute began =>
        obtain ⟨hsaid, hrest⟩ := List.forall_mem_cons.mp mute
        have hnone : (s.listeners said.kind).registered = [] := hsaid
        rw [hnone, List.map_nil, List.nil_append]
        refine .heard ended front back told before once hrest fun hback => ?_
        obtain ⟨_, _, _, hfirst⟩ := began hback
        cases hfirst

/-- Someone is told, and does what it does. -/
theorem Stood.tells {other : F} {said : Said Limits S L} (acts : List (Act F Input))
    (h : Stood s (.tells other said :: rest)) :
    Stood { s with told := s.told ++ [(other, said)] } (acts.map .does ++ rest) := by
  refine ⟨h.stands, h.listens, fun listener hlistens => ?_, ?_⟩
  · have hlast := h.last listener hlistens
    change ((heard listener (s.told ++ [(other, said)]) ++ (acts.map Due.does ++ rest).filterMap
      (Due.hears listener)).getLast?).getD .connecting = s.session.connection
    rw [List.filterMap_append, filterMap_does fun _ => rfl, List.nil_append, heard, List.filterMap_append,
      ← heard]
    by_cases heq : other = listener
    · cases hsaid : said.connection? with
      | none =>
          rw [List.filterMap_cons_none (by rw [heq, hears_self, hsaid])] at hlast
          rw [List.filterMap_cons_none (by simp only [heq, if_true, hsaid]), List.filterMap_nil,
            List.append_nil]
          exact hlast
      | some connection =>
          rw [List.filterMap_cons_some (by rw [heq, hears_self, hsaid])] at hlast
          rw [List.filterMap_cons_some (b := connection) (by simp only [heq, if_true, hsaid]),
            List.filterMap_nil, List.append_assoc]
          exact hlast
    · rw [List.filterMap_cons_none (hears_other heq said)] at hlast
      rw [List.filterMap_cons_none (by simp only [heq, if_false]), List.filterMap_nil, List.append_nil]
      exact hlast
  · have hacts {P : Due F Input Limits S L → Prop} (hdoes : ∀ act, P (.does act))
        (hrest : ∀ item ∈ rest, P item) : ∀ item ∈ acts.map Due.does ++ rest, P item := by
      intro item hitem
      rcases List.mem_append.mp hitem with hitem | hitem
      · obtain ⟨act, -, rfl⟩ := List.mem_map.mp hitem
        exact hdoes act
      · exact hrest item hitem
    have htold (hno : ∀ entry ∈ s.told, entry.2.isEnd = false) (hsaid : said.isEnd = false) :
        ∀ entry ∈ s.told ++ [(other, said)], entry.2.isEnd = false := by
      intro entry hentry
      rcases List.mem_append.mp hentry with hentry | hentry
      · exact hno entry hentry
      · rw [List.mem_singleton.mp hentry]
        exact hsaid
    cases h.phase with
    | live ended told later =>
        obtain ⟨hsaid, hrest⟩ := List.forall_mem_cons.mp later
        exact .live ended (htold told hsaid) (hacts (fun _ => rfl) hrest)
    | announced ended told rest' first later quiet => cases first
    | unheard ended told later nobody =>
        obtain ⟨hsaid, hrest⟩ := List.forall_mem_cons.mp later
        exact .unheard ended (htold told hsaid) (hacts (fun _ => rfl) hrest) nobody
    | heard ended front back told before once mute began =>
        obtain ⟨hsaid, hrest⟩ := List.forall_mem_cons.mp mute
        obtain rfl : said = .connection s.session.connection := hsaid
        refine .heard ended front (back ++ [other]) ?_ before ?_
          (hacts (fun _ => trivial) fun item hitem => ?_) fun hback => ?_
        · rw [List.map_append, ← List.append_assoc, ← told]
          rfl
        · rw [List.filterMap_append, filterMap_does fun _ => rfl, List.nil_append, List.append_assoc]
          exact once
        · have hmute := hrest item hitem
          cases item with
          | emits said => exact hmute
          | tells other said => exact hmute
          | does act => trivial
        · cases List.append_ne_nil_of_right_ne_nil back (List.cons_ne_nil other []) hback

/-- Between two events anything may be done. -/
theorem Stood.before (act : Act F Input) (h : Stood s ([] : List (Due F Input Limits S L))) :
    Stood s [.does act] := by
  refine ⟨h.stands, h.listens, h.last, ?_⟩
  have hone {P : Due F Input Limits S L → Prop} (hdoes : P (.does act)) : ∀ item ∈ [.does act], P item := by
    intro item hitem
    rw [List.mem_singleton.mp hitem]
    exact hdoes
  cases h.phase with
  | live ended told later => exact .live ended told (hone rfl)
  | announced ended told rest first later quiet => cases first
  | unheard ended told later nobody => exact .unheard ended told (hone rfl) nobody
  | heard ended front back told before once mute began =>
      refine .heard ended front back told before once (hone trivial) fun hback => ?_
      obtain ⟨_, _, _, hfirst⟩ := began hback
      cases hfirst

theorem stood_keeps (sdk : Sdk Data Input Raw Limits S L V) :
    (machine (F := F) sdk).Keeps Considerate Stood := by
  refine ⟨fun {s} event _ h => ?_, fun {s item rest} acts hmay h => ?_⟩
  · have hquiet : s.Quiet ([] : List (Due F Input Limits S L)) := fun item hitem => by cases hitem
    have hchanged {may : BaselineOf S L → Prop} {change : Says.Change Data Limits S L V}
        (htells : Says.Tells may s.session change) :
        Stood { s with session := change.1 } (change.2.map .emits : List (Due F Input Limits S L)) := by
      have hstood := (h.before .refresh).changed htells (.inr (.inr hquiet))
      rw [List.append_nil] at hstood
      exact hstood
    cases event with
    | receives data => exact hchanged (Says.tells_receive h.stands)
    | portCloses => exact hchanged (Says.tells_portCloses h.stands)
    | sendFails => exact hchanged (Says.tells_sendFails h.stands)
    | acts act =>
        have hmay : Considerate ⟨s, [.does act]⟩ := by
          cases act with
          | close => exact .inr (.inr hquiet)
          | on kind listener => exact fun _ said hsaid => by cases hsaid
          | _ => trivial
        have hstood := Stood.act (h.before act) hmay sdk
        rw [List.append_nil] at hstood
        exact hstood
  · cases item with
    | emits said => exact h.emits
    | tells listener said => exact h.tells acts
    | does act => exact h.act hmay sdk

theorem stood_opened (sdk : Sdk Data Input Raw Limits S L V) (listeners : Kind → Listeners F) :
    Stood (opened sdk listeners) ([] : List (Due F Input Limits S L)) := by
  refine ⟨Says.stands_opened, fun listener hlistens => hlistens, fun listener _ => rfl, ?_⟩
  exact .live rfl (fun entry hentry => by cases hentry) fun item hitem => by cases hitem

/-- Where no listener ends a session while others are still to be told what it is saying, the end
is the last word. -/
theorem end_is_the_last_word (sdk : Sdk Data Input Raw Limits S L V) (listeners : Kind → Listeners F)
    (moves : List (Reentry.Move (Event F Data Input) (List (Act F Input))))
    (hmeets : (machine sdk).Meets Considerate ⟨opened sdk listeners, []⟩ moves) :
    LastWord (after sdk listeners moves) :=
  ((stood_keeps sdk).run hmeets (stood_opened sdk listeners)).lastWord

section Example

open Client (plainSdk)

/-- Two listen to the connection, and nobody to anything else. -/
def twoListeners (kind : Kind) : Listeners Nat :=
  if kind = .connection then ⟨[0, 1], by decide⟩ else ⟨[], List.nodup_nil⟩

/-- A session attached: the welcome, then the baseline, said to be connected. -/
def attaching : List (Reentry.Move (Event Nat (Option (RawFrame Nat)) Unit) (List (Act Nat Unit))) :=
  [.event (.receives none), .event (.receives (some (.result 1 0))), .goes []]

/-- The second closes the session when it is told, and nobody is left to be told of the baseline. -/
theorem end_is_the_last_word_example :
    LastWord (after plainSdk twoListeners (attaching ++
      [.goes [], .goes [.close], .goes [], .goes [], .goes [], .goes [], .goes [], .goes []])) := by
  refine end_is_the_last_word plainSdk twoListeners _
    ⟨trivial, trivial, trivial, trivial, trivial, ?_, trivial, trivial, trivial, trivial, trivial, trivial⟩
  refine Or.inr (.inr fun item hitem => ?_)
  rcases List.mem_cons.mp hitem with rfl | hitem
  · rfl
  · rcases List.mem_cons.mp hitem with rfl | hitem
    · rfl
    · cases hitem

/-- The first closes the session when it is told, and the second is told of the end before it is
told that the session is connected. -/
theorem told_after_the_end :
    ¬ ∀ (listeners : Kind → Listeners Nat)
      (moves : List (Reentry.Move (Event Nat (Option (RawFrame Nat)) Unit) (List (Act Nat Unit)))),
      LastWord (after plainSdk listeners moves) := by
  intro hclaim
  let moves : List (Reentry.Move (Event Nat (Option (RawFrame Nat)) Unit) (List (Act Nat Unit))) :=
    attaching ++ [.goes [.close], .goes [], .goes [], .goes [], .goes [], .goes []]
  have htold : (after plainSdk twoListeners moves).state.told =
      [(0, .connection (.connected [] ()))] ++ (0, .connection (.disconnected none)) ::
        [(1, .connection (.disconnected none)), (1, .connection (.connected [] ()))] := rfl
  have hsilent := ((hclaim twoListeners moves).silent htold rfl).1
    (1, .connection (.connected [] ())) (by decide)
  cases hsilent

end Example

end Notified

end Estoc.Daemon
