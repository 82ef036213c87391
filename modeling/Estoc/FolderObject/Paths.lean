import Estoc.Lib.Checked
import Estoc.Lib.Json
import Mathlib.Data.List.Basic

/-!
# Paths and entry names

A path is spelled with slashes; what a tree holds under it is reached segment by segment.
`segmentsOf` reads a spelling, dropping empty segments, and refuses the two names that
climb. A name that `checkName` lets through is a segment that `segmentsOf` could have
read, so that a joined list of names and the list itself say the same.
-/

set_option linter.unusedSectionVars false

namespace Estoc.FolderObject

open Json (lit)
open Utf16 (JsString)
open Checked (refuse)

/-- `/`. -/
def slash : UInt16 := 0x2F

def join (segments : List JsString) : JsString := [slash].intercalate segments

/-- Split a `/`-separated relative path, rejecting anything unsafe. -/
def segmentsOf (path : JsString) : Except JsString (List JsString) := do
  let segments := (path.splitOn slash).filter (· ≠ [])
  refuse (segments = []) (lit "empty path")
  refuse (∃ segment ∈ segments, segment = lit "." ∨ segment = lit "..")
    (lit "unsafe path segment in " ++ path)
  pure segments

/-- What `checkName` refuses. -/
def badName (name : JsString) : Bool :=
  name = [] || name = lit "." || name = lit ".." || slash ∈ name

/-- A name an entry may have. -/
structure Name (name : JsString) : Prop where
  nonempty : name ≠ []
  not_dot : name ≠ lit "."
  not_up : name ≠ lit ".."
  whole : slash ∉ name

theorem badName_eq_false {name : JsString} : badName name = false ↔ Name name := by
  unfold badName
  constructor
  · intro h
    simp only [Bool.or_eq_false_iff, decide_eq_false_iff_not] at h
    exact ⟨h.1.1.1, h.1.1.2, h.1.2, h.2⟩
  · intro h
    simp [h.nonempty, h.not_dot, h.not_up, h.whole]

theorem notMem_of_mem_splitOn {u : UInt16} {path segment : JsString} (h : segment ∈ path.splitOn u) :
    u ∉ segment := by
  induction path generalizing segment with
  | nil =>
      rw [List.splitOn_nil, List.mem_singleton] at h
      rw [h]
      exact List.not_mem_nil
  | cons v rest ih =>
      rw [List.splitOn, List.splitOnP_cons_eq_if_modifyHead] at h
      split at h <;> rename_i hv
      · rcases List.mem_cons.mp h with rfl | h
        · exact List.not_mem_nil
        · exact ih h
      · cases hs : rest.splitOnP (· == u) with
        | nil => exact absurd hs (List.splitOnP_ne_nil _ _)
        | cons first others =>
            rw [hs, List.modifyHead_cons, List.mem_cons] at h
            have hrest : ∀ s ∈ first :: others, u ∉ s := by
              intro s hmem
              rw [← hs] at hmem
              exact ih hmem
            rcases h with rfl | h
            · intro hmem
              rcases List.mem_cons.mp hmem with rfl | hmem
              · exact hv (beq_self_eq_true u)
              · exact hrest first List.mem_cons_self hmem
            · exact hrest _ (List.mem_cons_of_mem _ h)

/-- What `segmentsOf` returns is a list of names, and not the empty one. -/
theorem names_of_segmentsOf {path : JsString} {segments : List JsString}
    (h : segmentsOf path = .ok segments) : segments ≠ [] ∧ ∀ segment ∈ segments, Name segment := by
  obtain ⟨hne, h⟩ := Checked.refuse_bind_eq_ok.mp h
  obtain ⟨hsafe, h⟩ := Checked.refuse_bind_eq_ok.mp h
  obtain rfl := Except.ok.inj h
  refine ⟨hne, fun segment hmem => ?_⟩
  have hsafe' : ¬ (segment = lit "." ∨ segment = lit "..") := fun h => hsafe ⟨segment, hmem, h⟩
  obtain ⟨hsplit, hfull⟩ := List.mem_filter.mp hmem
  exact ⟨of_decide_eq_true hfull, fun h => hsafe' (.inl h), fun h => hsafe' (.inr h),
    notMem_of_mem_splitOn hsplit⟩

theorem splitOn_join {segments : List JsString} (hne : segments ≠ [])
    (hnames : ∀ segment ∈ segments, Name segment) : (join segments).splitOn slash = segments :=
  List.splitOn_intercalate slash (fun s hs => (hnames s hs).whole) hne

theorem join_injective {segments segments' : List JsString} (hne : segments ≠ [])
    (hne' : segments' ≠ []) (hnames : ∀ segment ∈ segments, Name segment)
    (hnames' : ∀ segment ∈ segments', Name segment) (h : join segments = join segments') :
    segments = segments' := by
  rw [← splitOn_join hne hnames, ← splitOn_join hne' hnames', h]

end Estoc.FolderObject
