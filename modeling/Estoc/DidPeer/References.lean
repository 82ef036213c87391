import Estoc.DidPeer.LongForm
import Estoc.EventStore.Values
import Estoc.Vault.Ids

/-!
# Absolute references

A document refers to its own parts relatively, and a reader may want the references whole:
the IDs of methods and services, the relationships and the routing keys. Every rewrite goes
over the array under one name, so what it leaves is read name by name; it changes nothing
where no reference is relative, and leaves none.
-/

set_option linter.unusedSectionVars false

namespace Estoc.DidPeer

open Json (lit)
open Utf16 (JsString)
open EventStore (JsValue)
open EventStore.JsValue (get str hasOwn)

/-- The members of a record, in order. -/
abbrev Record := List (JsString × JsValue)

/-- A record given a member: in its place, or last. -/
def assign (name : JsString) (v : JsValue) : Record → Record
  | [] => [(name, v)]
  | m :: rest => if m.1 = name then (name, v) :: rest else m :: assign name v rest

/-- Neither null nor an array. An instance of something has no members of its own here. -/
def record? : JsValue → Option Record
  | .object members => some members
  | .host _ _ => some []
  | _ => none

/-- A record changed; anything else as it is. -/
def onRecord (f : Record → Record) (v : JsValue) : JsValue :=
  match record? v with
  | some members => .object (f members)
  | none => v

/-- Everything in an array changed; anything else as it is. -/
def onItems (f : JsValue → JsValue) : JsValue → JsValue
  | .array items => .array (items.map f)
  | v => v

/-- The array under a name changed. -/
def onArray (f : JsValue → JsValue) (document : Record) (name : JsString) : Record :=
  match get document name with
  | .array items => assign name (.array (items.map f)) document
  | _ => document

def METHOD_MEMBERS : List JsString := lit "verificationMethod" :: VERIFICATION_RELATIONSHIPS

def isRelative (reference : JsString) : Bool :=
  reference.head? == some 0x23 || reference.head? == some 0x3F

section
variable (did : JsString)

/-- A relative DID URL behind the DID. -/
def absolutize (reference : JsString) : JsString :=
  if isRelative reference then did ++ reference else reference

def absolutizeString : JsValue → JsValue
  | .scalar (.string reference) => str (absolutize did reference)
  | v => v

/-- The `id` of a method or of a service. -/
def absolutizeId (entry : Record) : Record :=
  match get entry (lit "id") with
  | .scalar (.string id) => assign (lit "id") (str (absolutize did id)) entry
  | _ => entry

def absolutizeEndpoint (endpoint : JsValue) : JsValue :=
  match record? endpoint with
  | some members =>
    match get members (lit "routingKeys") with
    | .array keys =>
      .object (assign (lit "routingKeys") (.array (keys.map (absolutizeString did))) members)
    | _ => endpoint
  | none => endpoint

/-- One endpoint, or an array of them. -/
def absolutizeEndpoints : JsValue → JsValue
  | .array endpoints => .array (endpoints.map (absolutizeEndpoint did))
  | endpoint => absolutizeEndpoint did endpoint

def absolutizeService (service : Record) : Record :=
  let result := absolutizeId did service
  assign (lit "serviceEndpoint")
    (absolutizeEndpoints did (get result (lit "serviceEndpoint"))) result

end

/-- The relative references of a document made absolute. -/
def absolutizeReferences (document : Record) : Record :=
  match get document (lit "id") with
  | .scalar (.string did) =>
    let methods := METHOD_MEMBERS.foldl (onArray (onRecord (absolutizeId did))) document
    let references := VERIFICATION_RELATIONSHIPS.foldl (onArray (absolutizeString did)) methods
    onArray (onRecord (absolutizeService did)) references (lit "service")
  | _ => document

/-- A string that is no relative reference, or no string at all. -/
def NotRelative (v : JsValue) : Prop := ∀ reference, v = str reference → isRelative reference = false

/-- No routing key of the endpoint is relative. -/
def AbsoluteEndpoint (endpoint : JsValue) : Prop :=
  ∀ members keys, record? endpoint = some members →
    get members (lit "routingKeys") = .array keys → ∀ key ∈ keys, NotRelative key

def endpointsOf : JsValue → List JsValue
  | .array endpoints => endpoints
  | endpoint => [endpoint]

structure AbsoluteService (service : Record) : Prop where
  id : NotRelative (get service (lit "id"))
  endpoints : ∀ endpoint ∈ endpointsOf (get service (lit "serviceEndpoint")),
    AbsoluteEndpoint endpoint

/-- No reference of the document is relative, wherever it may stand. -/
structure Absolute (document : Record) : Prop where
  methods : ∀ name ∈ METHOD_MEMBERS, ∀ entries, get document name = .array entries →
    ∀ entry ∈ entries, ∀ method, record? entry = some method → NotRelative (get method (lit "id"))
  references : ∀ name ∈ VERIFICATION_RELATIONSHIPS, ∀ entries,
    get document name = .array entries → ∀ entry ∈ entries, NotRelative entry
  services : ∀ services, get document (lit "service") = .array services →
    ∀ entry ∈ services, ∀ service, record? entry = some service → AbsoluteService service

/-! ## Members -/

theorem lookup_assign (name name' : JsString) (v : JsValue) (members : Record) :
    (assign name v members).lookup name' =
      if name' = name then some v else members.lookup name' := by
  have hbeq : ∀ other : JsString, (name' == other) = decide (name' = other) := fun _ => beq_eq_decide ..
  induction members with
  | nil =>
      rw [assign, List.lookup_cons, List.lookup_nil, hbeq]
      by_cases h : name' = name <;> simp [h]
  | cons m rest ih =>
      rw [assign]
      by_cases hm : m.1 = name
      · rw [if_pos hm, List.lookup_cons, List.lookup_cons, hbeq, hbeq, hm]
        by_cases h : name' = name <;> simp [h]
      · rw [if_neg hm, List.lookup_cons, List.lookup_cons, ih, hbeq]
        by_cases h : name' = m.1
        · simp [h, hm]
        · simp [h]

theorem get_assign (name name' : JsString) (v : JsValue) (members : Record) :
    get (assign name v members) name' = if name' = name then v else get members name' := by
  rw [EventStore.JsValue.get, lookup_assign]
  split
  · rfl
  · rfl

theorem assign_same {name : JsString} {v : JsValue} {members : Record}
    (h : members.lookup name = some v) : assign name v members = members := by
  induction members with
  | nil => cases h
  | cons m rest ih =>
      rw [assign]
      rw [List.lookup_cons] at h
      by_cases hm : m.1 = name
      · rw [if_pos hm, ← hm]
        rw [← hm, beq_self_eq_true] at h
        cases h
        rfl
      · have hne : (name == m.1) = false := by
          rw [beq_eq_false_iff_ne]
          exact fun h => hm h.symm
        rw [hne] at h
        rw [if_neg hm, ih h]

theorem lookup_of_get {members : Record} {name : JsString} {v : JsValue}
    (h : get members name = v) (hv : v ≠ .undefined) : members.lookup name = some v := by
  rw [EventStore.JsValue.get] at h
  cases hlookup : members.lookup name with
  | none =>
      rw [hlookup] at h
      exact absurd h.symm hv
  | some w =>
      rw [hlookup] at h
      exact congrArg some h

/-! ## Arrays under names -/

section
variable {f : JsValue → JsValue} {document : Record}

theorem get_onArray (name name' : JsString) :
    get (onArray f document name) name' =
      if name' = name then onItems f (get document name') else get document name' := by
  rw [onArray]
  split
  · next items hitems =>
      rw [get_assign]
      split
      · next h => rw [h, hitems, onItems]
      · rfl
  · next hnot =>
      split
      · next h =>
          rw [h, onItems]
          exact fun items hitems => hnot items hitems
      · rfl

theorem onArray_of_fixed {name : JsString}
    (h : ∀ items, get document name = .array items → ∀ v ∈ items, f v = v) :
    onArray f document name = document := by
  rw [onArray]
  split
  · next items hitems =>
      rw [List.map_congr_left (h items hitems), List.map_id']
      exact assign_same (lookup_of_get hitems fun h => by cases h)
  · rfl

theorem get_foldl {names : List JsString} (hnames : names.Nodup) (name : JsString) :
    get (names.foldl (onArray f) document) name =
      if name ∈ names then onItems f (get document name) else get document name := by
  induction names generalizing document with
  | nil => rfl
  | cons head rest ih =>
      obtain ⟨hhead, hrest⟩ := List.nodup_cons.mp hnames
      rw [List.foldl_cons, ih hrest, get_onArray]
      by_cases hname : name = head
      · rw [if_neg (hname ▸ hhead), if_pos hname, if_pos (hname ▸ List.mem_cons_self)]
      · simp [hname]

theorem foldl_of_fixed {names : List JsString} (h : ∀ name ∈ names, ∀ items,
    get document name = .array items → ∀ v ∈ items, f v = v) :
    names.foldl (onArray f) document = document := by
  induction names with
  | nil => rfl
  | cons head rest ih =>
      rw [List.foldl_cons, onArray_of_fixed (h head List.mem_cons_self),
        ih fun name hname => h name (List.mem_cons_of_mem _ hname)]

theorem onItems_array {v : JsValue} {items : List JsValue} (h : onItems f v = .array items) :
    ∀ w ∈ items, ∃ before, f before = w := by
  cases v with
  | array before =>
      cases h
      intro w hw
      obtain ⟨b, -, hb⟩ := List.mem_map.mp hw
      exact ⟨b, hb⟩
  | _ => cases h

end

/-! ## One entry -/

theorem notRelative_of_not_string {v : JsValue} (h : ∀ reference, v ≠ str reference) :
    NotRelative v := fun reference hv => absurd hv (h reference)

theorem notRelative_str {reference : JsString} (h : isRelative reference = false) :
    NotRelative (str reference) := by
  intro other hother
  cases hother
  exact h

section
variable {did : JsString}

theorem absolutize_of_absolute {reference : JsString} (h : isRelative reference = false) :
    absolutize did reference = reference := by
  rw [absolutize, h]
  rfl

theorem absolutizeString_of_absolute {v : JsValue} (h : NotRelative v) :
    absolutizeString did v = v := by
  rw [absolutizeString.eq_def]
  split
  · next reference => rw [absolutize_of_absolute (h reference rfl)]; rfl
  · rfl

theorem absolutizeId_of_absolute {entry : Record} (h : NotRelative (get entry (lit "id"))) :
    absolutizeId did entry = entry := by
  rw [absolutizeId]
  split
  · next id hid =>
      rw [absolutize_of_absolute (h id hid)]
      exact assign_same (lookup_of_get hid fun h => by cases h)
  · rfl

theorem absolutizeEndpoint_of_absolute {endpoint : JsValue} (h : AbsoluteEndpoint endpoint) :
    absolutizeEndpoint did endpoint = endpoint := by
  rw [absolutizeEndpoint]
  split
  · next members hmembers =>
      split
      · next keys hkeys =>
          have hsame : keys.map (absolutizeString did) = keys := by
            rw [List.map_congr_left fun key hkey =>
              absolutizeString_of_absolute (h members keys hmembers hkeys key hkey), List.map_id']
          rw [hsame, assign_same (lookup_of_get hkeys fun h => by cases h)]
          cases endpoint with
          | object given => cases hmembers; rfl
          | host name json => cases hmembers; cases hkeys
          | _ => cases hmembers
      · rfl
  · rfl

theorem absolutizeEndpoints_of_absolute {v : JsValue}
    (h : ∀ endpoint ∈ endpointsOf v, AbsoluteEndpoint endpoint) : absolutizeEndpoints did v = v := by
  rw [absolutizeEndpoints.eq_def]
  split
  · next endpoints =>
      have hsame : endpoints.map (absolutizeEndpoint did) = endpoints := by
        conv_rhs => rw [← List.map_id endpoints]
        exact List.map_congr_left fun endpoint hendpoint =>
          absolutizeEndpoint_of_absolute (h endpoint hendpoint)
      exact congrArg JsValue.array hsame
  · next hnot =>
      refine absolutizeEndpoint_of_absolute (h v ?_)
      rw [endpointsOf.eq_def]
      split
      · exact absurd rfl (hnot _)
      · exact List.mem_singleton_self v

theorem absolutizeService_of_absolute {service : Record} (h : AbsoluteService service)
    (hown : hasOwn service (lit "serviceEndpoint") = true) :
    absolutizeService did service = service := by
  rw [absolutizeService, absolutizeId_of_absolute h.id, absolutizeEndpoints_of_absolute h.endpoints]
  rw [EventStore.JsValue.hasOwn] at hown
  obtain ⟨v, hv⟩ := Option.isSome_iff_exists.mp hown
  refine assign_same ?_
  rw [EventStore.JsValue.get, hv]
  rfl

theorem record_onRecord {f : Record → Record} {v : JsValue} {members : Record}
    (h : record? (onRecord f v) = some members) : ∃ before, members = f before := by
  rw [onRecord] at h
  split at h
  · next before _ => exact ⟨before, (Option.some.inj h).symm⟩
  · next hnone =>
      rw [hnone] at h
      cases h

theorem onRecord_onRecord {f : Record → Record} (h : ∀ before, f (f before) = f before)
    (v : JsValue) : onRecord f (onRecord f v) = onRecord f v := by
  cases v with
  | object members => exact congrArg JsValue.object (h members)
  | host name json => exact congrArg JsValue.object (h [])
  | _ => rfl

/-- Strings and records are different entries: neither rewrite undoes the other. -/
theorem onRecord_absolutizeString {f : Record → Record} (h : ∀ before, f (f before) = f before)
    (v : JsValue) : onRecord f (absolutizeString did (onRecord f v)) =
      absolutizeString did (onRecord f v) := by
  cases v with
  | object members => exact congrArg JsValue.object (h members)
  | host name json => exact congrArg JsValue.object (h [])
  | scalar s => cases s <;> rfl
  | _ => rfl

/-- A DID in front makes a reference absolute. -/
def Fronts (did : JsString) : Prop := ∀ reference, isRelative (did ++ reference) = false

variable (hdid : Fronts did)

include hdid

theorem not_isRelative_absolutize (reference : JsString) :
    isRelative (absolutize did reference) = false := by
  rw [absolutize]
  split
  · exact hdid reference
  · next h => exact Bool.eq_false_of_not_eq_true h

theorem notRelative_absolutizeString (v : JsValue) : NotRelative (absolutizeString did v) := by
  rw [absolutizeString.eq_def]
  split
  · exact notRelative_str (not_isRelative_absolutize hdid _)
  · next hnot => exact notRelative_of_not_string hnot

theorem notRelative_absolutizeId (entry : Record) :
    NotRelative (get (absolutizeId did entry) (lit "id")) := by
  rw [absolutizeId]
  split
  · rw [get_assign, if_pos rfl]
    exact notRelative_str (not_isRelative_absolutize hdid _)
  · next hnot => exact notRelative_of_not_string hnot

theorem absoluteEndpoint_absolutizeEndpoint (endpoint : JsValue) :
    AbsoluteEndpoint (absolutizeEndpoint did endpoint) := by
  intro members keys hmembers hkeys key hkey
  rw [absolutizeEndpoint] at hmembers
  split at hmembers
  · next before hbefore =>
      split at hmembers
      · next given hgiven =>
          cases hmembers
          rw [get_assign, if_pos rfl] at hkeys
          cases hkeys
          obtain ⟨k, -, rfl⟩ := List.mem_map.mp hkey
          exact notRelative_absolutizeString hdid k
      · next hnot =>
          rw [hbefore] at hmembers
          cases hmembers
          exact absurd hkeys (hnot keys)
  · next hnone =>
      rw [hnone] at hmembers
      cases hmembers

theorem absolute_absolutizeEndpoints (v : JsValue) :
    ∀ endpoint ∈ endpointsOf (absolutizeEndpoints did v), AbsoluteEndpoint endpoint := by
  rw [absolutizeEndpoints.eq_def]
  split
  · next endpoints =>
      intro endpoint hendpoint
      obtain ⟨before, -, rfl⟩ := List.mem_map.mp hendpoint
      exact absoluteEndpoint_absolutizeEndpoint hdid before
  · next hnot =>
      have hplain : ∀ endpoints, absolutizeEndpoint did v ≠ .array endpoints := by
        intro endpoints
        rw [absolutizeEndpoint]
        split
        · split
          · exact fun h => by cases h
          · exact hnot endpoints
        · exact hnot endpoints
      intro endpoint hendpoint
      rw [endpointsOf.eq_def] at hendpoint
      split at hendpoint
      · next endpoints h => exact absurd h (hplain endpoints)
      · rw [List.mem_singleton.mp hendpoint]
        exact absoluteEndpoint_absolutizeEndpoint hdid v

theorem absolute_absolutizeService (service : Record) :
    AbsoluteService (absolutizeService did service) ∧
      hasOwn (absolutizeService did service) (lit "serviceEndpoint") = true := by
  refine ⟨⟨?_, ?_⟩, ?_⟩
  · rw [absolutizeService, get_assign, if_neg (by decide)]
    exact notRelative_absolutizeId hdid service
  · rw [absolutizeService, get_assign, if_pos rfl]
    exact absolute_absolutizeEndpoints hdid _
  · rw [absolutizeService, EventStore.JsValue.hasOwn, lookup_assign, if_pos rfl]
    rfl

theorem absolutizeId_absolutizeId (entry : Record) :
    absolutizeId did (absolutizeId did entry) = absolutizeId did entry :=
  absolutizeId_of_absolute (notRelative_absolutizeId hdid entry)

end

/-! ## The document -/

section
variable {document : Record} {did : JsString}

/-- What stands under each name once a document was rewritten. -/
theorem get_absolutizeReferences (hid : get document (lit "id") = str did) (name : JsString) :
    get (absolutizeReferences document) name =
      if name = lit "verificationMethod" then
        onItems (onRecord (absolutizeId did)) (get document name)
      else if name ∈ VERIFICATION_RELATIONSHIPS then
        onItems (absolutizeString did) (onItems (onRecord (absolutizeId did)) (get document name))
      else if name = lit "service" then
        onItems (onRecord (absolutizeService did)) (get document name)
      else get document name := by
  have hmethods : METHOD_MEMBERS.Nodup := by decide
  have hrelationships : VERIFICATION_RELATIONSHIPS.Nodup := by decide
  have hservice : lit "service" ∉ VERIFICATION_RELATIONSHIPS := by decide
  have hservice' : lit "service" ∉ METHOD_MEMBERS := by decide
  have hlisted : lit "verificationMethod" ∉ VERIFICATION_RELATIONSHIPS := by decide
  have hid' : get document (lit "id") = .scalar (.string did) := hid
  rw [absolutizeReferences, hid']
  simp only []
  rw [get_onArray, get_foldl hrelationships, get_foldl hmethods]
  by_cases h1 : name = lit "verificationMethod"
  · have hmember : name ∈ METHOD_MEMBERS := h1 ▸ by decide
    have hnot : name ∉ VERIFICATION_RELATIONSHIPS := h1 ▸ hlisted
    have hne : name ≠ lit "service" := h1 ▸ by decide
    rw [if_neg hne, if_neg hnot, if_pos hmember, if_pos h1]
  · by_cases h2 : name ∈ VERIFICATION_RELATIONSHIPS
    · have hne : name ≠ lit "service" := fun h => hservice (h ▸ h2)
      have hmember : name ∈ METHOD_MEMBERS := List.mem_cons_of_mem _ h2
      rw [if_neg h1, if_pos h2, if_neg hne, if_pos h2, if_pos hmember]
    · have hnot : name ∉ METHOD_MEMBERS := fun h => (List.mem_cons.mp h).elim h1 h2
      rw [if_neg h1, if_neg h2, if_neg hnot, if_neg h2]

variable (hdid : Fronts did) (hid : get document (lit "id") = str did)

include hdid hid

/-- What a rewritten array holds is what the rewrite made of something. -/
theorem entries_absolutizeReferences {name : JsString} {entries : List JsValue}
    (h : get (absolutizeReferences document) name = .array entries) :
    (name = lit "verificationMethod" →
      ∀ entry ∈ entries, ∃ before, entry = onRecord (absolutizeId did) before) ∧
    (name ∈ VERIFICATION_RELATIONSHIPS → ∀ entry ∈ entries, ∃ before,
      entry = absolutizeString did (onRecord (absolutizeId did) before)) ∧
    (name = lit "service" →
      ∀ entry ∈ entries, ∃ before, entry = onRecord (absolutizeService did) before) := by
  rw [get_absolutizeReferences hid] at h
  refine ⟨?_, ?_, ?_⟩
  · intro hname entry hentry
    rw [if_pos hname] at h
    obtain ⟨before, hbefore⟩ := onItems_array h entry hentry
    exact ⟨before, hbefore.symm⟩
  · intro hname entry hentry
    have hne : name ≠ lit "verificationMethod" := fun h =>
      absurd (h ▸ hname) (by decide : lit "verificationMethod" ∉ VERIFICATION_RELATIONSHIPS)
    rw [if_neg hne, if_pos hname] at h
    cases hdoc : get document name with
    | array items =>
        rw [hdoc] at h
        cases h
        simp only [List.mem_map] at hentry
        obtain ⟨w, ⟨before, -, rfl⟩, rfl⟩ := hentry
        exact ⟨before, rfl⟩
    | _ =>
        rw [hdoc] at h
        cases h
  · intro hname entry hentry
    have hne : name ≠ lit "verificationMethod" := hname ▸ by decide
    have hnot : name ∉ VERIFICATION_RELATIONSHIPS := hname ▸ by decide
    rw [if_neg hne, if_neg hnot, if_pos hname] at h
    obtain ⟨before, hbefore⟩ := onItems_array h entry hentry
    exact ⟨before, hbefore.symm⟩

theorem absolute_absolutizeReferences : Absolute (absolutizeReferences document) := by
  refine ⟨?_, ?_, ?_⟩
  · intro name hname entries hentries entry hentry method hmethod
    obtain ⟨hmethods, hrelationships, -⟩ := entries_absolutizeReferences hdid hid hentries
    rcases List.mem_cons.mp hname with hname | hname
    · obtain ⟨before, rfl⟩ := hmethods hname entry hentry
      obtain ⟨members, rfl⟩ := record_onRecord hmethod
      exact notRelative_absolutizeId hdid members
    · obtain ⟨before, rfl⟩ := hrelationships hname entry hentry
      have hrecord : record? (onRecord (absolutizeId did) before) = some method := by
        cases hbefore : onRecord (absolutizeId did) before with
        | scalar s =>
            rw [hbefore] at hmethod
            cases s <;> cases hmethod
        | _ => rw [hbefore] at hmethod; exact hmethod
      obtain ⟨members, rfl⟩ := record_onRecord hrecord
      exact notRelative_absolutizeId hdid members
  · intro name hname entries hentries entry hentry
    obtain ⟨-, hrelationships, -⟩ := entries_absolutizeReferences hdid hid hentries
    obtain ⟨before, rfl⟩ := hrelationships hname entry hentry
    exact notRelative_absolutizeString hdid _
  · intro services hservices entry hentry service hservice
    obtain ⟨-, -, hall⟩ := entries_absolutizeReferences hdid hid hservices
    obtain ⟨before, rfl⟩ := hall rfl entry hentry
    obtain ⟨members, rfl⟩ := record_onRecord hservice
    exact (absolute_absolutizeService hdid members).1

/-- Nothing is left to rewrite. -/
theorem absolutizeReferences_absolutizeReferences :
    absolutizeReferences (absolutizeReferences document) = absolutizeReferences document := by
  have hkept : get (absolutizeReferences document) (lit "id") = .scalar (.string did) := by
    rw [get_absolutizeReferences hid, if_neg (by decide), if_neg (by decide), if_neg (by decide)]
    exact hid
  have hid' := absolutizeId_absolutizeId hdid
  have hservice : ∀ service, absolutizeService did (absolutizeService did service) =
      absolutizeService did service := fun service =>
    absolutizeService_of_absolute (absolute_absolutizeService hdid service).1
      (absolute_absolutizeService hdid service).2
  have hmethods : ∀ name ∈ METHOD_MEMBERS, ∀ entries,
      get (absolutizeReferences document) name = .array entries →
      ∀ entry ∈ entries, onRecord (absolutizeId did) entry = entry := by
    intro name hname entries hentries entry hentry
    obtain ⟨hmethods, hrelationships, -⟩ := entries_absolutizeReferences hdid hid hentries
    rcases List.mem_cons.mp hname with hname | hname
    · obtain ⟨before, rfl⟩ := hmethods hname entry hentry
      exact onRecord_onRecord hid' before
    · obtain ⟨before, rfl⟩ := hrelationships hname entry hentry
      exact onRecord_absolutizeString hid' before
  have hreferences : ∀ name ∈ VERIFICATION_RELATIONSHIPS, ∀ entries,
      get (absolutizeReferences document) name = .array entries →
      ∀ entry ∈ entries, absolutizeString did entry = entry :=
    fun name hname entries hentries entry hentry => absolutizeString_of_absolute
      ((absolute_absolutizeReferences hdid hid).references name hname entries hentries entry hentry)
  have hservices : ∀ entries,
      get (absolutizeReferences document) (lit "service") = .array entries →
      ∀ entry ∈ entries, onRecord (absolutizeService did) entry = entry := by
    intro entries hentries entry hentry
    obtain ⟨-, -, hall⟩ := entries_absolutizeReferences hdid hid hentries
    obtain ⟨before, rfl⟩ := hall rfl entry hentry
    exact onRecord_onRecord hservice before
  generalize absolutizeReferences document = result at *
  rw [absolutizeReferences, hkept]
  simp only []
  rw [foldl_of_fixed hmethods, foldl_of_fixed hreferences, onArray_of_fixed hservices]

end

/-- A DID begins with a letter. -/
theorem fronts_of_isDid {did : JsString} (h : Vault.isDid did = true) : Fronts did := by
  simp only [Vault.isDid, Bool.and_eq_true] at h
  obtain ⟨rest, rfl⟩ := List.isPrefixOf_iff_prefix.mp h.1.1.1
  intro reference
  rfl

end Estoc.DidPeer
