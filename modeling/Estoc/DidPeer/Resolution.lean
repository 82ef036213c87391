import Mathlib.Data.List.Forall2
import Estoc.DidPeer.References

/-!
# One long form, two resolutions

A long form resolves to its document under either form of the DID, the other form as an
alias. The two documents are compared member by member as they are put together: what is set
to a form of the DID differs, what came with the document does not.
-/

set_option linter.unusedSectionVars false

namespace Estoc.DidPeer

open Json (lit member setMember)
open Utf16 (JsString)

/-- The document of a long form, identified by the short form. -/
def resolveShortForm (P : Packages) (longFormDid : JsString) : Except JsString Members := do
  let shortForm ← longToShort longFormDid
  let document ← decodeLongForm P longFormDid
  pure (withAlsoKnownAs (contextualizeDocument shortForm document) longFormDid)

def controlledBy (did : JsString) (method : Members) : Members :=
  method ++ [(lit "controller", .scalar (.string did))]

/-- The same entry, but for the DID it is controlled by where it named no controller. -/
inductive SameEntry (did did' : JsString) : Json → Json → Prop where
  | same (entry : Json) : SameEntry did did' entry entry
  | controller {method : Members} : lit "controller" ∉ method.map Prod.fst →
      SameEntry did did' (.object (controlledBy did method)) (.object (controlledBy did' method))

/-- The same methods, but for the controllers that were added. -/
inductive SameMethods (did did' : JsString) : Json → Json → Prop where
  | same (v : Json) : SameMethods did did' v v
  | entries {entries entries' : List Json} : List.Forall₂ (SameEntry did did') entries entries' →
      SameMethods did did' (.array entries) (.array entries')

/-- The aliases with one that is known. -/
def withAlias (known : JsString) (aliases : List Json) : List Json :=
  if aliases.any (isText known) then aliases else aliases ++ [.scalar (.string known)]

/-- One member of the document under `did` and of the one under `did'`, each the other's
alias. -/
structure SameMember (did did' : JsString) (m m' : JsString × Json) : Prop where
  name : m.1 = m'.1
  id : m.1 = lit "id" → m.2 = .scalar (.string did) ∧ m'.2 = .scalar (.string did')
  alsoKnownAs : m.1 = lit "alsoKnownAs" →
    ∃ aliases, m.2 = .array (withAlias did' aliases) ∧ m'.2 = .array (withAlias did aliases)
  methods : m.1 ∈ METHOD_MEMBERS → SameMethods did did' m.2 m'.2
  rest : m.1 ≠ lit "id" → m.1 ≠ lit "alsoKnownAs" → m.1 ∉ METHOD_MEMBERS → m.2 = m'.2

/-- The same before the aliases are set. -/
structure AlikeMember (did did' : JsString) (m m' : JsString × Json) : Prop where
  name : m.1 = m'.1
  id : m.1 = lit "id" → m.2 = .scalar (.string did) ∧ m'.2 = .scalar (.string did')
  methods : m.1 ∈ METHOD_MEMBERS → SameMethods did did' m.2 m'.2
  rest : m.1 ≠ lit "id" → m.1 ∉ METHOD_MEMBERS → m.2 = m'.2

/-! ## Members side by side -/

section
variable {R S : JsString × Json → JsString × Json → Prop} {ms ms' : Members}

theorem map_fst_of_forall₂ (hname : ∀ m m', R m m' → m.1 = m'.1) (h : List.Forall₂ R ms ms') :
    ms.map Prod.fst = ms'.map Prod.fst := by
  induction h with
  | nil => rfl
  | cons hm _ ih => rw [List.map_cons, List.map_cons, hname _ _ hm, ih]

theorem forall₂_setMember {name : JsString} {v v' : Json} (hname : ∀ m m', R m m' → m.1 = m'.1)
    (hkeep : ∀ m m', R m m' → m.1 ≠ name → S m m') (hset : S (name, v) (name, v'))
    (h : List.Forall₂ R ms ms') :
    List.Forall₂ S (setMember ms name v) (setMember ms' name v') := by
  have hmap : List.Forall₂ S (ms.map fun m => if m.1 == name then (name, v) else m)
      (ms'.map fun m => if m.1 == name then (name, v') else m) := by
    rw [List.forall₂_map_left_iff, List.forall₂_map_right_iff]
    refine h.imp fun m m' hm => ?_
    rw [← hname m m' hm]
    by_cases hmatch : (m.1 == name) = true
    · rw [if_pos hmatch, if_pos hmatch]
      exact hset
    · rw [if_neg hmatch, if_neg hmatch]
      exact hkeep m m' hm fun heq => hmatch (beq_iff_eq.mpr heq)
  have hany : (ms'.any fun m => m.1 == name) = ms.any fun m => m.1 == name := by
    have hfst := map_fst_of_forall₂ hname h
    have hof : ∀ ns : Members, (ns.any fun m => m.1 == name) =
        (ns.map Prod.fst).any (· == name) := fun ns => by rw [List.any_map]; rfl
    rw [hof, hof, hfst]
  rw [setMember, setMember, hany]
  split
  · exact hmap
  · next hnone =>
      refine List.rel_append ?_ (.cons hset .nil)
      have hnot : ∀ m ∈ ms, m.1 ≠ name := by
        intro m hm heq
        exact hnone (List.any_eq_true.mpr ⟨m, hm, beq_iff_eq.mpr heq⟩)
      clear hmap hany hnone
      induction h with
      | nil => exact .nil
      | cons hm _ ih =>
          obtain ⟨hhead, htail⟩ := List.forall_mem_cons.mp hnot
          exact .cons (hkeep _ _ hm hhead) (ih htail)

theorem member_cons (m : JsString × Json) (rest : Members) (name : JsString) :
    member (m :: rest) name = if m.1 = name then some m.2 else member rest name := by
  rw [member, List.find?_cons]
  by_cases h : m.1 = name
  · rw [if_pos h, beq_iff_eq.mpr h]
    rfl
  · rw [if_neg h, beq_eq_false_iff_ne.mpr h]
    rfl

/-- Under one name there is nothing in either, or two values that belong together. -/
theorem member_of_forall₂ (hname : ∀ m m', R m m' → m.1 = m'.1) (h : List.Forall₂ R ms ms')
    (name : JsString) : (member ms name = none ∧ member ms' name = none) ∨
      ∃ v v', member ms name = some v ∧ member ms' name = some v' ∧ R (name, v) (name, v') := by
  induction h with
  | nil => exact .inl ⟨rfl, rfl⟩
  | @cons m m' rest rest' hm _ ih =>
      obtain ⟨first, v⟩ := m
      obtain ⟨first', v'⟩ := m'
      have hfst : first = first' := hname _ _ hm
      subst hfst
      rw [member_cons, member_cons]
      by_cases hmatch : first = name
      · subst hmatch
        exact .inr ⟨v, v', if_pos rfl, if_pos rfl, hm⟩
      · rw [if_neg hmatch, if_neg hmatch]
        exact ih

end

/-! ## Stage by stage -/

section
variable {did did' : JsString}

theorem nodup_names : lit "id" ∉ METHOD_MEMBERS ∧ lit "alsoKnownAs" ∉ METHOD_MEMBERS ∧
    lit "alsoKnownAs" ≠ lit "id" := by decide

/-- Under an `id` of its own, a document is the same otherwise. -/
theorem alike_setId (document : Members) : List.Forall₂ (AlikeMember did did')
    (setMember document (lit "id") (.scalar (.string did)))
    (setMember document (lit "id") (.scalar (.string did'))) := by
  have hsame : List.Forall₂ Eq document document := List.forall₂_eq_eq_eq ▸ rfl
  refine forall₂_setMember (fun m m' h => congrArg Prod.fst h) (fun m m' h hne => ?_)
    ⟨rfl, fun _ => ⟨rfl, rfl⟩, fun h => absurd h nodup_names.1, fun h => absurd rfl h⟩ hsame
  subst h
  exact ⟨rfl, fun h => absurd h hne, fun _ => .same _, fun _ _ => rfl⟩

/-- What `contextualizeDocument` makes of a method. -/
def controlled (did : JsString) (method : Members) : Members :=
  if (member method (lit "controller")).isNone then
    setMember method (lit "controller") (.scalar (.string did)) else method

theorem member_eq_none {members : Members} {name : JsString} (h : member members name = none) :
    name ∉ members.map Prod.fst := by
  intro hmem
  obtain ⟨m, hm, hname⟩ := List.mem_map.mp hmem
  rw [member, Option.map_eq_none_iff, List.find?_eq_none] at h
  exact h m hm (beq_iff_eq.mpr hname)

theorem controlled_controlledBy (did did' : JsString) (method : Members) :
    controlled did (controlledBy did' method) = controlledBy did' method := by
  rw [controlled, if_neg]
  intro hnone
  have hnot := member_eq_none (Option.isNone_iff_eq_none.mp hnone)
  exact hnot (List.mem_map.mpr ⟨_, List.mem_append_right _ List.mem_cons_self, rfl⟩)

def onObject (f : Members → Members) : Json → Json
  | .object entry => .object (f entry)
  | entry => entry

theorem sameEntry_controlled {entry entry' : Json} (h : SameEntry did did' entry entry') :
    SameEntry did did' (onObject (controlled did) entry) (onObject (controlled did') entry') := by
  cases h with
  | same =>
      cases entry with
      | object method =>
          show SameEntry did did' (.object (controlled did method)) (.object (controlled did' method))
          rw [controlled, controlled]
          split
          · next hnone =>
              have hnot := member_eq_none (Option.isNone_iff_eq_none.mp hnone)
              rw [Json.setMember_of_new _ hnot, Json.setMember_of_new _ hnot]
              exact .controller hnot
          · exact .same _
      | _ => exact .same _
  | @controller method hnot =>
      show SameEntry did did' (.object (controlled did (controlledBy did method)))
        (.object (controlled did' (controlledBy did' method)))
      rw [controlled_controlledBy, controlled_controlledBy]
      exact .controller hnot

theorem alike_mapEntries {ms ms' : Members} {name : JsString} (hname : name ∈ METHOD_MEMBERS)
    (h : List.Forall₂ (AlikeMember did did') ms ms') :
    List.Forall₂ (AlikeMember did did') (mapEntries (controlled did) ms name)
      (mapEntries (controlled did') ms' name) := by
  have hid : name ≠ lit "id" := fun h => nodup_names.1 (h ▸ hname)
  have hset : ∀ entries entries', List.Forall₂ (SameEntry did did') entries entries' →
      List.Forall₂ (AlikeMember did did')
        (setMember ms name (.array (entries.map (onObject (controlled did)))))
        (setMember ms' name (.array (entries'.map (onObject (controlled did'))))) := by
    intro entries entries' hentries
    refine forall₂_setMember (fun _ _ hm => hm.name) (fun _ _ hm _ => hm)
      ⟨rfl, fun h => absurd h hid, fun _ => .entries ?_, fun _ h => absurd hname h⟩ h
    rw [List.forall₂_map_left_iff, List.forall₂_map_right_iff]
    exact hentries.imp fun _ _ => sameEntry_controlled
  rcases member_of_forall₂ (fun _ _ hm => hm.name) h name with ⟨hm, hm'⟩ | ⟨v, v', hm, hm', halike⟩
  · rw [mapEntries, mapEntries, hm, hm']
    exact h
  · rw [mapEntries, mapEntries, hm, hm']
    cases halike.methods hname with
    | same =>
        cases v with
        | array entries => exact hset entries entries (List.forall₂_same.mpr fun e _ => .same e)
        | _ => exact h
    | @entries entries entries' hentries => exact hset entries entries' hentries

theorem contextualizeDocument_eq (did : JsString) (document : Members) :
    contextualizeDocument did document = METHOD_MEMBERS.foldl (mapEntries (controlled did))
      (setMember document (lit "id") (.scalar (.string did))) := by
  rw [contextualizeDocument, mapVerificationMethods, METHOD_MEMBERS]
  rfl

theorem alike_contextualizeDocument (did did' : JsString) (document : Members) :
    List.Forall₂ (AlikeMember did did') (contextualizeDocument did document)
      (contextualizeDocument did' document) := by
  have hfold : ∀ names : List JsString, (∀ name ∈ names, name ∈ METHOD_MEMBERS) →
      ∀ ms ms', List.Forall₂ (AlikeMember did did') ms ms' →
        List.Forall₂ (AlikeMember did did') (names.foldl (mapEntries (controlled did)) ms)
          (names.foldl (mapEntries (controlled did')) ms') := by
    intro names
    induction names with
    | nil => exact fun _ _ _ h => h
    | cons name rest ih =>
        intro hnames ms ms' h
        obtain ⟨hname, hrest⟩ := List.forall_mem_cons.mp hnames
        exact ih hrest _ _ (alike_mapEntries hname h)
  rw [contextualizeDocument_eq, contextualizeDocument_eq]
  exact hfold METHOD_MEMBERS (fun _ h => h) _ _ (alike_setId document)

theorem withAlsoKnownAs_eq (document : Members) (known : JsString) :
    withAlsoKnownAs document known = setMember document (lit "alsoKnownAs")
      (.array (withAlias known (match member document (lit "alsoKnownAs") with
        | some (.array existing) => existing
        | _ => []))) := rfl

/-- The two resolutions of a document, member by member. -/
theorem same_resolutions (document : Members) :
    List.Forall₂ (SameMember did did')
      (withAlsoKnownAs (contextualizeDocument did document) did')
      (withAlsoKnownAs (contextualizeDocument did' document) did) := by
  obtain ⟨-, halias, hid⟩ := nodup_names
  have halike := alike_contextualizeDocument did did' document
  have hexisting : member (contextualizeDocument did document) (lit "alsoKnownAs") =
      member (contextualizeDocument did' document) (lit "alsoKnownAs") := by
    rcases member_of_forall₂ (fun _ _ hm => hm.name) halike (lit "alsoKnownAs") with
      ⟨hm, hm'⟩ | ⟨v, v', hm, hm', hboth⟩
    · rw [hm, hm']
    · rw [hm, hm', show v = v' from hboth.rest hid halias]
  rw [withAlsoKnownAs_eq, withAlsoKnownAs_eq, ← hexisting]
  refine forall₂_setMember (fun _ _ hm => hm.name) (fun m m' hm hne => ?_) ?_ halike
  · exact ⟨hm.name, hm.id, fun h => absurd h hne, hm.methods, fun h _ => hm.rest h⟩
  · exact ⟨rfl, fun h => absurd h hid, fun _ => ⟨_, rfl, rfl⟩, fun h => absurd h halias,
      fun _ h => absurd rfl h⟩

end

end Estoc.DidPeer
