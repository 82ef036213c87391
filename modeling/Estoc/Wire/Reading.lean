import Estoc.Lib.JsonQuoting
import Estoc.Wire.Values

/-!
# What the walk reads

The walk comes to a tree and its weight: what was read is wired, what it charged is the tree's
weight, and both hold whichever way the value came, with accessors, views of buffers and shared
objects or as a tree made anew. So a tree that was read once is read again to itself, at the
same size and under the same bounds.
-/

set_option linter.unusedSectionVars false

namespace Estoc.Wire

open Json (lit)
open Utf16 (JsString chars encodeUtf8 isHigh isLow pairChar unitChar)
open Checked (refuse bind_eq_ok refuse_bind_eq_ok)

/-! ## Weights -/

def Scalar.weight : Scalar → Nat
  | .string s => VALUE_CHARGE + utf8Length s
  | _ => VALUE_CHARGE

mutual

/-- The logical size of a value. -/
def Value.weight : Value → Nat
  | .scalar s => Scalar.weight s
  | .bytes content => VALUE_CHARGE + content.length
  | .array items => VALUE_CHARGE + Value.weightItems items
  | .record members => VALUE_CHARGE + Value.weightMembers members

def Value.weightItems : List Value → Nat
  | [] => 0
  | v :: vs => v.weight + Value.weightItems vs

def Value.weightMembers : List (JsString × Value) → Nat
  | [] => 0
  | (key, v) :: ms => VALUE_CHARGE + utf8Length key + v.weight + Value.weightMembers ms

end

/-- What a reading comes to: numbers finite and zero without a sign, bytes where they may be,
each member once, nothing too deep. -/
inductive Wired (budget : Option Budget) (bytesAt : List JsString) : Nat → Bool → Value → Prop where
  | scalar {depth : Nat} {slot : Bool} {s : Scalar} : (∀ b ∈ budget, depth ≤ b.maxDepth) →
      Json.readable s → Wired budget bytesAt depth slot (.scalar s)
  | bytes {depth : Nat} {content : List UInt8} : (∀ b ∈ budget, depth ≤ b.maxDepth) →
      Wired budget bytesAt depth true (.bytes content)
  | array {depth : Nat} {slot : Bool} {items : List Value} : (∀ b ∈ budget, depth ≤ b.maxDepth) →
      (∀ v ∈ items, Wired budget bytesAt (depth + 1) false v) →
      Wired budget bytesAt depth slot (.array items)
  | record {depth : Nat} {slot : Bool} {members : List (JsString × Value)} :
      (∀ b ∈ budget, depth ≤ b.maxDepth) → (members.map Prod.fst).Nodup →
      (∀ m ∈ members, Wired budget bytesAt (depth + 1) (depth = 1 && bytesAt.contains m.1) m.2) →
      Wired budget bytesAt depth slot (.record members)

/-! ## Bytes and slots -/

theorem Scalar.charge_le_weight (s : Scalar) : VALUE_CHARGE ≤ Scalar.weight s := by
  cases s <;> simp [Scalar.weight]

theorem length_exactBytes (view : View) : (exactBytes view).length = view.byteLength := by
  have hwithin := view.within
  rw [exactBytes]
  split
  · next h => exact h.2.1.symm
  · rw [List.length_take, List.length_drop]
    omega

theorem exactBytes_whole (content : List UInt8) : exactBytes (.whole content) = content :=
  if_pos ⟨rfl, rfl, rfl⟩

/-- What a wire value is made into may stand in an array. -/
theorem checkElement_raw (v : Value) : checkElement v.raw = .ok () := by cases v <;> rfl

theorem isMember_raw (v : Value) : isMember true v.raw = .ok true := by cases v <;> rfl

/-! ## Charges -/

section
variable {budget : Option Budget} {bytesAt : List JsString}

theorem charge_eq_ok {size amount size' : Nat} : charge budget size amount = .ok size' ↔
    size' = size + amount ∧ ∀ b ∈ budget, size' ≤ b.maxValueBytes := by
  cases budget with
  | none => simp [charge, eq_comm]
  | some budget =>
      rw [charge, refuse_bind_eq_ok]
      constructor
      · intro h
        obtain rfl := Except.ok.inj h.2
        exact ⟨rfl, fun b hb => by cases hb; omega⟩
      · intro h
        have := h.2 budget rfl
        exact ⟨by omega, by rw [h.1]; rfl⟩

theorem checkDepth_eq_ok {depth : Nat} {u : Unit} : checkDepth budget depth = .ok u ↔
    ∀ b ∈ budget, depth ≤ b.maxDepth := by
  cases budget with
  | none => simp [checkDepth]
  | some budget => simp [checkDepth]

/-- A character takes no fewer bytes than units. -/
theorem length_le_utf8Length (text : JsString) : text.length ≤ utf8Length text := by
  rw [utf8Length_eq]
  induction text using Utf16.chars.induct with
  | case1 => exact Nat.zero_le _
  | case2 u =>
      have hu := (unitChar u).utf8Size_pos
      rw [Utf16.length_encodeUtf8_cons (unitChar u) [] rfl, List.length_singleton]
      omega
  | case3 u v rest hpair ih =>
      have hboth := Bool.and_eq_true_iff.mp hpair
      have hsize := Utf16.utf8Size_pairChar hboth.1 hboth.2
      rw [Utf16.length_encodeUtf8_cons (pairChar u v) rest (by rw [chars, if_pos hpair])]
      simp only [List.length_cons]
      omega
  | case4 u v rest hpair ih =>
      have hu := (unitChar u).utf8Size_pos
      rw [Utf16.length_encodeUtf8_cons (unitChar u) (v :: rest) (by rw [chars, if_neg hpair]),
        List.length_cons]
      omega

/-! ## What is read -/

/-- The walk came to a value, from one size to another. -/
structure Comes (budget : Option Budget) (bytesAt : List JsString) (depth : Nat) (slot : Bool)
    (size : Nat) (v : Value) (size' : Nat) : Prop where
  wired : Wired budget bytesAt depth slot v
  charged : size' = size + v.weight
  within : ∀ b ∈ budget, size' ≤ b.maxValueBytes

theorem readScalar_comes {depth size size' : Nat} {slot : Bool} {s : Scalar} {v : Value}
    (hdepth : ∀ b ∈ budget, depth ≤ b.maxDepth)
    (hsize : ∀ b ∈ budget, size + VALUE_CHARGE ≤ b.maxValueBytes)
    (h : readScalar budget (size + VALUE_CHARGE) s = .ok (v, size')) :
    Comes budget bytesAt depth slot size v size' := by
  cases s with
  | null => cases h; exact ⟨.scalar hdepth trivial, rfl, hsize⟩
  | boolean b => cases h; exact ⟨.scalar hdepth trivial, rfl, hsize⟩
  | string s =>
      obtain ⟨units, hunits, h⟩ := bind_eq_ok.mp h
      obtain ⟨bytes, hbytes, h⟩ := bind_eq_ok.mp h
      cases h
      obtain ⟨rfl, hwithin⟩ := charge_eq_ok.mp hbytes
      have hle := length_le_utf8Length s
      refine ⟨.scalar hdepth trivial, ?_, hwithin⟩
      rw [(charge_eq_ok.mp hunits).1, Value.weight, Scalar.weight]
      omega
  | number x =>
      obtain ⟨hfinite, h⟩ := refuse_bind_eq_ok.mp h
      cases h
      have hfinite : x.isFinite = true := by simpa using hfinite
      exact ⟨.scalar hdepth ⟨Binary64.isFinite_unsigned hfinite, Json.unsigned_ne_negZero x⟩, rfl,
        hsize⟩

/-- What every reading of an item comes to, as an hypothesis of the readings of many. -/
abbrev Reads (budget : Option Budget) (bytesAt : List JsString) (r : Raw) : Prop :=
  ∀ {ancestors : List Nat} {depth : Nat} {slot : Bool} {size : Nat} {v : Value} {size' : Nat},
    read budget bytesAt ancestors depth slot size r = .ok (v, size') →
      Comes budget bytesAt depth slot size v size'

theorem readItems_comes {ancestors : List Nat} {depth size size' : Nat} {items : List Raw}
    {vs : List Value} (hitems : ∀ r ∈ items, Reads budget bytesAt r)
    (hsize : ∀ b ∈ budget, size ≤ b.maxValueBytes)
    (h : readItems budget bytesAt ancestors depth size items = .ok (vs, size')) :
    (∀ v ∈ vs, Wired budget bytesAt (depth + 1) false v) ∧ size' = size + Value.weightItems vs ∧
      ∀ b ∈ budget, size' ≤ b.maxValueBytes := by
  induction items generalizing vs size with
  | nil =>
      cases h
      exact ⟨fun v hv => (List.not_mem_nil hv).elim, rfl, hsize⟩
  | cons item items ih =>
      obtain ⟨hitem, hitems⟩ := List.forall_mem_cons.mp hitems
      obtain ⟨-, -, h⟩ := bind_eq_ok.mp h
      obtain ⟨⟨v, read⟩, hread, h⟩ := bind_eq_ok.mp h
      obtain ⟨⟨vs, rest⟩, hrest, h⟩ := bind_eq_ok.mp h
      cases h
      have hv := hitem hread
      obtain ⟨hvs, hcharged, hwithin⟩ := ih hitems hv.within hrest
      refine ⟨List.forall_mem_cons.mpr ⟨hv.wired, hvs⟩, ?_, hwithin⟩
      rw [hcharged, hv.charged, Value.weightItems]
      omega

theorem readMembers_comes {ancestors : List Nat} {depth size size' : Nat} {properties : Properties}
    {ms : List (JsString × Value)} (hproperties : ∀ p ∈ properties, Reads budget bytesAt p.2.2)
    (hsize : ∀ b ∈ budget, size ≤ b.maxValueBytes)
    (h : readMembers budget bytesAt ancestors depth size properties = .ok (ms, size')) :
    (ms.map Prod.fst).Sublist (properties.map Prod.fst) ∧
      (∀ m ∈ ms, Wired budget bytesAt (depth + 1) (depth = 1 && bytesAt.contains m.1) m.2) ∧
      size' = size + Value.weightMembers ms ∧ ∀ b ∈ budget, size' ≤ b.maxValueBytes := by
  induction properties generalizing ms size with
  | nil =>
      cases h
      exact ⟨.slnil, fun m hm => (List.not_mem_nil hm).elim, rfl, hsize⟩
  | cons property properties ih =>
      obtain ⟨key, enumerable, member⟩ := property
      obtain ⟨hproperty, hproperties⟩ := List.forall_mem_cons.mp hproperties
      obtain ⟨isMember, -, h⟩ := bind_eq_ok.mp h
      cases isMember with
      | false =>
          obtain ⟨hnames, hrest⟩ := ih hproperties hsize h
          exact ⟨hnames.cons key, hrest⟩
      | true =>
          obtain ⟨keyed, hkey, h⟩ := bind_eq_ok.mp h
          obtain ⟨⟨v, read⟩, hread, h⟩ := bind_eq_ok.mp h
          obtain ⟨⟨ms, rest⟩, hrest, h⟩ := bind_eq_ok.mp h
          cases h
          have hv := hproperty hread
          obtain ⟨hnames, hms, hcharged, hwithin⟩ := ih hproperties hv.within hrest
          refine ⟨hnames.cons_cons key, List.forall_mem_cons.mpr ⟨hv.wired, hms⟩, ?_, hwithin⟩
          rw [hcharged, hv.charged, (charge_eq_ok.mp hkey).1, Value.weightMembers]
          omega

/-- What was read is wired, and charged its weight. -/
theorem read_comes {r : Raw} (hdistinct : r.Distinct) : Reads budget bytesAt r := by
  induction hdistinct with
  | scalar s =>
      intro ancestors depth slot size v size' h
      obtain ⟨_, hdepth, h⟩ := bind_eq_ok.mp h
      obtain ⟨charged, hcharge, h⟩ := bind_eq_ok.mp h
      obtain ⟨rfl, hwithin⟩ := charge_eq_ok.mp hcharge
      exact readScalar_comes (checkDepth_eq_ok.mp hdepth) hwithin h
  | bytes view =>
      intro ancestors depth slot size v size' h
      obtain ⟨_, hdepth, h⟩ := bind_eq_ok.mp h
      obtain ⟨charged, hcharge, h⟩ := bind_eq_ok.mp h
      obtain ⟨hslot, h⟩ := refuse_bind_eq_ok.mp h
      obtain ⟨all, hall, h⟩ := bind_eq_ok.mp h
      cases h
      obtain ⟨rfl, hwithin⟩ := charge_eq_ok.mp hall
      obtain rfl : slot = true := by simpa using hslot
      refine ⟨.bytes (checkDepth_eq_ok.mp hdepth), ?_, hwithin⟩
      rw [(charge_eq_ok.mp hcharge).1, Value.weight, length_exactBytes]
      omega
  | @array identity plain items _ ih =>
      intro ancestors depth slot size v size' h
      obtain ⟨_, hdepth, h⟩ := bind_eq_ok.mp h
      obtain ⟨charged, hcharge, h⟩ := bind_eq_ok.mp h
      obtain ⟨within, -, h⟩ := bind_eq_ok.mp h
      obtain ⟨-, h⟩ := refuse_bind_eq_ok.mp h
      obtain ⟨⟨vs, all⟩, hitems, h⟩ := bind_eq_ok.mp h
      cases h
      obtain ⟨rfl, hwithin⟩ := charge_eq_ok.mp hcharge
      obtain ⟨hwired, hcharged, hwithin⟩ := readItems_comes ih hwithin hitems
      refine ⟨.array (checkDepth_eq_ok.mp hdepth) hwired, ?_, hwithin⟩
      rw [hcharged, Value.weight]
      omega
  | @record identity plain properties hnames _ ih =>
      intro ancestors depth slot size v size' h
      obtain ⟨_, hdepth, h⟩ := bind_eq_ok.mp h
      obtain ⟨charged, hcharge, h⟩ := bind_eq_ok.mp h
      obtain ⟨within, -, h⟩ := bind_eq_ok.mp h
      obtain ⟨-, h⟩ := refuse_bind_eq_ok.mp h
      obtain ⟨⟨ms, all⟩, hmembers, h⟩ := bind_eq_ok.mp h
      cases h
      obtain ⟨rfl, hwithin⟩ := charge_eq_ok.mp hcharge
      obtain ⟨hsublist, hwired, hcharged, hwithin⟩ := readMembers_comes ih hwithin hmembers
      refine ⟨.record (checkDepth_eq_ok.mp hdepth) (hsublist.nodup hnames) hwired, ?_, hwithin⟩
      rw [hcharged, Value.weight]
      omega
  | _ =>
      intro ancestors depth slot size v size' h
      obtain ⟨-, -, h⟩ := bind_eq_ok.mp h
      obtain ⟨-, -, h⟩ := bind_eq_ok.mp h
      cases h

/-! ## Reading again -/

/-- A charge within what is still to come fits where all of that does. -/
theorem charge_within {size weight : Nat} (amount : Nat)
    (hfits : ∀ b ∈ budget, size + weight ≤ b.maxValueBytes) (hle : amount ≤ weight) :
    charge budget size amount = .ok (size + amount) :=
  charge_eq_ok.mpr ⟨rfl, fun b hb => Nat.le_trans (by omega) (hfits b hb)⟩

/-- A value is read to itself where its weight still fits, whatever the walk is in. -/
abbrev ReadsBack (budget : Option Budget) (bytesAt : List JsString) (depth : Nat) (slot : Bool)
    (v : Value) : Prop :=
  ∀ {ancestors : List Nat} {size : Nat}, (∀ b ∈ budget, size + v.weight ≤ b.maxValueBytes) →
    read budget bytesAt ancestors depth slot size v.raw = .ok (v, size + v.weight)

theorem readScalar_raw {size : Nat} {s : Scalar} (hs : Json.readable s)
    (hfits : ∀ b ∈ budget, size + Scalar.weight s ≤ b.maxValueBytes) :
    readScalar budget (size + VALUE_CHARGE) s = .ok (.scalar s, size + Scalar.weight s) := by
  cases s with
  | string s =>
      have hle := length_le_utf8Length s
      rw [Scalar.weight] at hfits ⊢
      refine bind_eq_ok.mpr ⟨size + VALUE_CHARGE + s.length, charge_eq_ok.mpr
        ⟨rfl, fun b hb => Nat.le_trans (by omega) (hfits b hb)⟩, ?_⟩
      refine bind_eq_ok.mpr ⟨size + (VALUE_CHARGE + utf8Length s), charge_eq_ok.mpr
        ⟨by omega, hfits⟩, rfl⟩
  | number x =>
      refine refuse_bind_eq_ok.mpr ⟨by simp [hs.1], ?_⟩
      rw [Binary64.unsigned, if_neg hs.2]
      rfl
  | _ => rfl

theorem readItems_raw {ancestors : List Nat} {depth size : Nat} {vs : List Value}
    (hvs : ∀ v ∈ vs, ReadsBack budget bytesAt (depth + 1) false v)
    (hfits : ∀ b ∈ budget, size + Value.weightItems vs ≤ b.maxValueBytes) :
    readItems budget bytesAt ancestors depth size (Value.rawItems vs) =
      .ok (vs, size + Value.weightItems vs) := by
  induction vs generalizing size with
  | nil => rfl
  | cons v vs ih =>
      obtain ⟨hv, hvs⟩ := List.forall_mem_cons.mp hvs
      rw [Value.weightItems] at hfits ⊢
      refine bind_eq_ok.mpr ⟨(), checkElement_raw v, ?_⟩
      refine bind_eq_ok.mpr ⟨_, hv fun b hb => Nat.le_trans (by omega) (hfits b hb), ?_⟩
      refine bind_eq_ok.mpr ⟨_, ih hvs fun b hb => Nat.le_trans (by omega) (hfits b hb), ?_⟩
      rw [← Nat.add_assoc]
      rfl

theorem readMembers_raw {ancestors : List Nat} {depth size : Nat} {ms : List (JsString × Value)}
    (hms : ∀ m ∈ ms, ReadsBack budget bytesAt (depth + 1) (depth = 1 && bytesAt.contains m.1) m.2)
    (hfits : ∀ b ∈ budget, size + Value.weightMembers ms ≤ b.maxValueBytes) :
    readMembers budget bytesAt ancestors depth size (Value.rawMembers ms) =
      .ok (ms, size + Value.weightMembers ms) := by
  induction ms generalizing size with
  | nil => rfl
  | cons m ms ih =>
      obtain ⟨hm, hms⟩ := List.forall_mem_cons.mp hms
      rw [Value.weightMembers] at hfits ⊢
      refine bind_eq_ok.mpr ⟨true, isMember_raw m.2, ?_⟩
      refine bind_eq_ok.mpr ⟨_, charge_within (VALUE_CHARGE + utf8Length m.1) hfits (by omega), ?_⟩
      refine bind_eq_ok.mpr ⟨_, hm fun b hb => Nat.le_trans (by omega) (hfits b hb), ?_⟩
      refine bind_eq_ok.mpr ⟨_, ih hms fun b hb => Nat.le_trans (by omega) (hfits b hb), ?_⟩
      rw [show size + (VALUE_CHARGE + utf8Length m.1 + m.2.weight + Value.weightMembers ms) =
        size + (VALUE_CHARGE + utf8Length m.1) + m.2.weight + Value.weightMembers ms by omega]
      rfl

/-- A wired value reads back. -/
theorem read_raw {depth : Nat} {slot : Bool} {v : Value} (h : Wired budget bytesAt depth slot v) :
    ReadsBack budget bytesAt depth slot v := by
  induction h with
  | @scalar depth slot s hdepth hs =>
      intro ancestors size hfits
      refine bind_eq_ok.mpr ⟨(), checkDepth_eq_ok.mpr hdepth, ?_⟩
      refine bind_eq_ok.mpr ⟨_, charge_within VALUE_CHARGE hfits (Scalar.charge_le_weight s), ?_⟩
      exact readScalar_raw hs hfits
  | @bytes depth content hdepth =>
      intro ancestors size hfits
      refine bind_eq_ok.mpr ⟨(), checkDepth_eq_ok.mpr hdepth, ?_⟩
      rw [Value.weight] at hfits ⊢
      refine bind_eq_ok.mpr ⟨_, charge_within VALUE_CHARGE hfits (by omega), ?_⟩
      refine refuse_bind_eq_ok.mpr ⟨by simp, ?_⟩
      refine bind_eq_ok.mpr ⟨size + (VALUE_CHARGE + content.length), charge_eq_ok.mpr
        ⟨by rw [Nat.add_assoc]; rfl, hfits⟩, ?_⟩
      rw [exactBytes_whole]
      rfl
  | @array depth slot items hdepth _ ih =>
      intro ancestors size hfits
      refine bind_eq_ok.mpr ⟨(), checkDepth_eq_ok.mpr hdepth, ?_⟩
      rw [Value.weight] at hfits ⊢
      refine bind_eq_ok.mpr ⟨_, charge_within VALUE_CHARGE hfits (by omega), ?_⟩
      refine bind_eq_ok.mpr ⟨ancestors, rfl, refuse_bind_eq_ok.mpr ⟨by simp, ?_⟩⟩
      refine bind_eq_ok.mpr ⟨_, readItems_raw ih fun b hb => ?_, ?_⟩
      · exact Nat.le_trans (by omega) (hfits b hb)
      · rw [← Nat.add_assoc]
        rfl
  | @record depth slot members hdepth _ _ ih =>
      intro ancestors size hfits
      refine bind_eq_ok.mpr ⟨(), checkDepth_eq_ok.mpr hdepth, ?_⟩
      rw [Value.weight] at hfits ⊢
      refine bind_eq_ok.mpr ⟨_, charge_within VALUE_CHARGE hfits (by omega), ?_⟩
      refine bind_eq_ok.mpr ⟨ancestors, rfl, refuse_bind_eq_ok.mpr ⟨by simp, ?_⟩⟩
      refine bind_eq_ok.mpr ⟨_, readMembers_raw ih fun b hb => ?_, ?_⟩
      · exact Nat.le_trans (by omega) (hfits b hb)
      · rw [← Nat.add_assoc]
        rfl

end

/-! ## Where bytes come from -/

section
variable {budget : Option Budget} {bytesAt : List JsString} {ancestors : List Nat}
  {depth size size' : Nat} {slot : Bool}

theorem readScalar_not_bytes {s : Scalar} {content : List UInt8} :
    readScalar budget size s ≠ .ok (.bytes content, size') := by
  intro h
  cases s with
  | null => cases h
  | boolean b => cases h
  | string s =>
      obtain ⟨_, _, h⟩ := bind_eq_ok.mp h
      obtain ⟨_, _, h⟩ := bind_eq_ok.mp h
      cases h
  | number x =>
      obtain ⟨_, h⟩ := refuse_bind_eq_ok.mp h
      cases h

/-- Bytes are read off a view that selects as many. -/
theorem bytes_of_read {r : Raw} {content : List UInt8}
    (h : read budget bytesAt ancestors depth slot size r = .ok (.bytes content, size')) :
    ∃ view, r = .bytes view ∧ view.byteLength = content.length := by
  cases r with
  | bytes view =>
      obtain ⟨_, _, h⟩ := bind_eq_ok.mp h
      obtain ⟨_, _, h⟩ := bind_eq_ok.mp h
      obtain ⟨_, h⟩ := refuse_bind_eq_ok.mp h
      obtain ⟨_, _, h⟩ := bind_eq_ok.mp h
      cases h
      exact ⟨view, rfl, (length_exactBytes view).symm⟩
  | scalar s =>
      obtain ⟨_, _, h⟩ := bind_eq_ok.mp h
      obtain ⟨_, _, h⟩ := bind_eq_ok.mp h
      exact (readScalar_not_bytes h).elim
  | array identity plain items =>
      obtain ⟨_, _, h⟩ := bind_eq_ok.mp h
      obtain ⟨_, _, h⟩ := bind_eq_ok.mp h
      obtain ⟨_, _, h⟩ := bind_eq_ok.mp h
      obtain ⟨_, h⟩ := refuse_bind_eq_ok.mp h
      obtain ⟨_, _, h⟩ := bind_eq_ok.mp h
      cases h
  | record identity plain properties =>
      obtain ⟨_, _, h⟩ := bind_eq_ok.mp h
      obtain ⟨_, _, h⟩ := bind_eq_ok.mp h
      obtain ⟨_, _, h⟩ := bind_eq_ok.mp h
      obtain ⟨_, h⟩ := refuse_bind_eq_ok.mp h
      obtain ⟨_, _, h⟩ := bind_eq_ok.mp h
      cases h
  | _ =>
      obtain ⟨_, _, h⟩ := bind_eq_ok.mp h
      obtain ⟨_, _, h⟩ := bind_eq_ok.mp h
      cases h

/-- A member that is bytes was a property that selected as many. -/
theorem bytes_of_readMembers {properties : Properties} {ms : List (JsString × Value)}
    {key : JsString} {content : List UInt8}
    (h : readMembers budget bytesAt ancestors depth size properties = .ok (ms, size'))
    (hmem : (key, .bytes content) ∈ ms) :
    ∃ view, (key, true, .bytes view) ∈ properties ∧ view.byteLength = content.length := by
  induction properties generalizing ms size with
  | nil =>
      cases h
      exact (List.not_mem_nil hmem).elim
  | cons property properties ih =>
      obtain ⟨name, enumerable, member⟩ := property
      obtain ⟨isMember, hmember, h⟩ := bind_eq_ok.mp h
      cases isMember with
      | false =>
          obtain ⟨view, hview, hlength⟩ := ih h hmem
          exact ⟨view, List.mem_cons_of_mem _ hview, hlength⟩
      | true =>
          obtain ⟨keyed, _, h⟩ := bind_eq_ok.mp h
          obtain ⟨⟨v, read⟩, hread, h⟩ := bind_eq_ok.mp h
          obtain ⟨⟨rest, all⟩, hrest, h⟩ := bind_eq_ok.mp h
          cases h
          rcases List.mem_cons.mp hmem with heq | hmem
          · cases heq
            obtain ⟨view, rfl, hlength⟩ := bytes_of_read hread
            obtain rfl : enumerable = true := Except.ok.inj hmember
            exact ⟨view, List.mem_cons_self, hlength⟩
          · obtain ⟨view, hview, hlength⟩ := ih hrest hmem
            exact ⟨view, List.mem_cons_of_mem _ hview, hlength⟩

theorem record_of_read {r : Raw} {members : List (JsString × Value)}
    (h : read budget bytesAt ancestors depth slot size r = .ok (.record members, size')) :
    ∃ identity properties within charged, r = .record identity true properties ∧
      readMembers budget bytesAt within depth charged properties = .ok (members, size') := by
  cases r with
  | bytes view =>
      obtain ⟨_, _, h⟩ := bind_eq_ok.mp h
      obtain ⟨_, _, h⟩ := bind_eq_ok.mp h
      obtain ⟨_, h⟩ := refuse_bind_eq_ok.mp h
      obtain ⟨_, _, h⟩ := bind_eq_ok.mp h
      cases h
  | scalar s =>
      obtain ⟨_, _, h⟩ := bind_eq_ok.mp h
      obtain ⟨_, _, h⟩ := bind_eq_ok.mp h
      cases s with
      | null => cases h
      | boolean b => cases h
      | string s =>
          obtain ⟨_, _, h⟩ := bind_eq_ok.mp h
          obtain ⟨_, _, h⟩ := bind_eq_ok.mp h
          cases h
      | number x =>
          obtain ⟨_, h⟩ := refuse_bind_eq_ok.mp h
          cases h
  | array identity plain items =>
      obtain ⟨_, _, h⟩ := bind_eq_ok.mp h
      obtain ⟨_, _, h⟩ := bind_eq_ok.mp h
      obtain ⟨_, _, h⟩ := bind_eq_ok.mp h
      obtain ⟨_, h⟩ := refuse_bind_eq_ok.mp h
      obtain ⟨_, _, h⟩ := bind_eq_ok.mp h
      cases h
  | record identity plain properties =>
      obtain ⟨_, _, h⟩ := bind_eq_ok.mp h
      obtain ⟨charged, _, h⟩ := bind_eq_ok.mp h
      obtain ⟨within, _, h⟩ := bind_eq_ok.mp h
      obtain ⟨hplain, h⟩ := refuse_bind_eq_ok.mp h
      obtain ⟨⟨ms, all⟩, hmembers, h⟩ := bind_eq_ok.mp h
      cases h
      obtain rfl : plain = true := by simpa using hplain
      exact ⟨identity, properties, within, charged, rfl, hmembers⟩
  | _ =>
      obtain ⟨_, _, h⟩ := bind_eq_ok.mp h
      obtain ⟨_, _, h⟩ := bind_eq_ok.mp h
      cases h

end

end Estoc.Wire
