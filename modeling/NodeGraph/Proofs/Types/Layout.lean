import Mathlib.Data.List.Forall2
import NodeGraph.Proofs.Types.Registry

/-!
# Layout of structures

The sizes of structures are words, but what they should be is said over all natural numbers: `extent` is where the last
of some fields ends, and a structure of these fields has it rounded up (`structSize`). As no field makes a structure
smaller, all numbers on the way are words if the last one is (`structLayout_append`, `FitsFrom.of_lt`), and laying out
ends in a fault exactly if the fields in front of the first unknown type are too large (`Outgrows`).
-/
namespace NodeGraph

/-- The fields of a definition, if it is one of a structure. -/
def TypeDefinition.fields (d : TypeDefinition) : List StructField :=
  match d.kind with
  | .struct fields => fields
  | _ => []

namespace TypeRegistry

variable {r : TypeRegistry} {n m a size alignment : Nat} {name : String} {field : StructField}
  {fields front back : List StructField} {info : TypeInfo} {types : List TypeInfo} {s : Nat × Nat}

/-! ## Rounding -/

theorem le_alignUp (ha : 0 < a) : n ≤ alignUp n a := by
  have hmod := Nat.div_add_mod (n + a - 1) a
  have hlt := Nat.mod_lt (n + a - 1) ha
  rw [alignUp, Nat.mul_comm]
  omega

theorem dvd_alignUp : a ∣ alignUp n a := Nat.dvd_mul_left _ _

/-- No smaller multiple would do. -/
theorem alignUp_le (ha : 0 < a) (hm : a ∣ m) (hn : n ≤ m) : alignUp n a ≤ m := by
  obtain ⟨q, rfl⟩ := hm
  have hq : (n + a - 1) / a ≤ q := by
    rw [Nat.div_le_iff_le_mul_add_pred ha]
    omega
  rw [alignUp, Nat.mul_comm a q]
  exact Nat.mul_le_mul_right a hq

/-- The quotient rounded up, from the quotient and the remainder. -/
def quotientUp (n a : Nat) : Nat := n / a + if n % a = 0 then 0 else 1

theorem alignUp_eq (ha : 0 < a) : alignUp n a = quotientUp n a * a := by
  have hdiv := Nat.div_add_mod n a
  have hlt := Nat.mod_lt n ha
  have hle : n ≤ quotientUp n a * a := by
    rw [quotientUp, Nat.add_mul, Nat.mul_comm (n / a)]
    split <;> omega
  refine Nat.le_antisymm (alignUp_le ha (Nat.dvd_mul_left a _) hle) ?_
  obtain ⟨q, hq⟩ := dvd_alignUp (n := n) (a := a)
  have hn : n ≤ a * q := hq ▸ le_alignUp ha
  rw [hq, Nat.mul_comm a q]
  refine Nat.mul_le_mul_right a ?_
  unfold quotientUp
  split
  · exact Nat.div_le_of_le_mul hn
  · next hmod =>
    refine (Nat.div_lt_iff_lt_mul ha).2 (Nat.lt_of_le_of_ne (Nat.mul_comm a q ▸ hn) fun h => hmod ?_)
    rw [h, Nat.mul_mod_left]

theorem quotientUp_le (ha : 0 < a) : quotientUp n a ≤ n := by
  unfold quotientUp
  split
  · exact Nat.div_le_self n a
  · next hmod =>
    -- With a remainder the divisor is not one.
    have ha' : a ≠ 1 := by
      rintro rfl
      exact hmod (Nat.mod_one n)
    exact Nat.div_lt_self (Nat.pos_of_ne_zero fun h => hmod (by rw [h, Nat.zero_mod])) (by omega)

/-! ## Extent -/

/-- Size and alignment behind one more field. -/
def behind (s : Nat × Nat) (info : TypeInfo) : Nat × Nat :=
  (alignUp s.1 info.alignment + info.size, max s.2 info.alignment)

/-- Size and alignment behind fields of the given types. -/
def extent (types : List TypeInfo) : Nat × Nat := types.foldl behind (0, 1)

/-- The size of a structure with fields of the given types. -/
def structSize (types : List TypeInfo) : Nat := alignUp (extent types).1 (extent types).2

/-- The types of fields, all of which are registered. -/
def FieldTypes (r : TypeRegistry) (fields : List StructField) (types : List TypeInfo) : Prop :=
  List.Forall₂ (fun field info => r.get? field.typeName = some info) fields types

theorem le_foldl_behind (hpos : ∀ info ∈ types, 0 < info.alignment) : s.1 ≤ (types.foldl behind s).1 := by
  induction types generalizing s with
  | nil => exact Nat.le_refl _
  | cons info types ih =>
    obtain ⟨hinfo, hpos⟩ := List.forall_mem_cons.1 hpos
    calc s.1 ≤ alignUp s.1 info.alignment := le_alignUp hinfo
      _ ≤ (behind s info).1 := Nat.le_add_right _ _
      _ ≤ _ := ih hpos

/-- The alignment is that of one of the fields. -/
theorem foldl_behind_alignment {P : Nat → Prop} (hstart : P s.2) (htypes : ∀ info ∈ types, P info.alignment) :
    P (types.foldl behind s).2 := by
  induction types generalizing s with
  | nil => exact hstart
  | cons info types ih =>
    obtain ⟨hinfo, htypes⟩ := List.forall_mem_cons.1 htypes
    refine ih (?_ : P (max s.2 info.alignment)) htypes
    rcases Nat.le_total s.2 info.alignment with h | h
    · rwa [Nat.max_eq_right h]
    · rwa [Nat.max_eq_left h]

/-- Fields take at most `bound` each with the padding in front of them, if that is a multiple of all alignments. -/
theorem foldl_behind_le {unit bound limit : Nat} (hunit : 0 < unit) (hbound : unit ∣ bound) (hlimit : unit ∣ limit)
    (hstart : s.1 ≤ limit) (htypes : ∀ info ∈ types, info.size ≤ bound ∧ info.alignment ∣ unit) :
    (types.foldl behind s).1 ≤ limit + types.length * bound := by
  induction types generalizing s limit with
  | nil => simpa using hstart
  | cons info types ih =>
    obtain ⟨⟨hsize, halign⟩, htypes⟩ := List.forall_mem_cons.1 htypes
    have hoffset := alignUp_le (Nat.pos_of_dvd_of_pos halign hunit) (Nat.dvd_trans halign hlimit) hstart
    have hrest := ih (s := behind s info) (Nat.dvd_add hlimit hbound) (Nat.add_le_add hoffset hsize) htypes
    rw [List.foldl_cons, List.length_cons, Nat.succ_mul]
    omega

/-! ## Arithmetic in words -/

/-- Rounding up divides by no zero, and the quotient and the product are words. -/
structure Rounds (n a : Nat) : Prop where
  divisor : a ≠ 0
  quotient : quotientUp n a < wordLimit
  product : quotientUp n a * a < wordLimit

/-- All numbers on the way behind the fields are words. -/
def FitsFrom : Nat × Nat → List TypeInfo → Prop
  | _, [] => True
  | s, info :: types => Rounds s.1 info.alignment ∧
      quotientUp s.1 info.alignment * info.alignment + info.size < wordLimit ∧ FitsFrom (behind s info) types

/-- All numbers in the layout of a structure are words. -/
def Fits (types : List TypeInfo) : Prop := FitsFrom (0, 1) types ∧ Rounds (extent types).1 (extent types).2

theorem Rounds.of_lt (ha : 0 < a) (h : alignUp n a < wordLimit) : Rounds n a where
  divisor := Nat.ne_of_gt ha
  quotient := Nat.lt_of_le_of_lt (quotientUp_le ha) (Nat.lt_of_le_of_lt (le_alignUp ha) h)
  product := alignUp_eq ha ▸ h

/-- If the last number is a word, so are those before it. -/
theorem FitsFrom.of_lt (hpos : ∀ info ∈ types, 0 < info.alignment) (h : (types.foldl behind s).1 < wordLimit) :
    FitsFrom s types := by
  induction types generalizing s with
  | nil => trivial
  | cons info types ih =>
    obtain ⟨hinfo, hpos⟩ := List.forall_mem_cons.1 hpos
    have hsum : (behind s info).1 < wordLimit := Nat.lt_of_le_of_lt (le_foldl_behind hpos) h
    refine ⟨.of_lt hinfo (Nat.lt_of_le_of_lt (Nat.le_add_right _ _) hsum), ?_, ih hpos h⟩
    rw [← alignUp_eq hinfo]
    exact hsum

/-! ## Laying out -/

theorem addField_of_lt (h : (behind (size, alignment) info).1 < wordLimit) :
    addField size alignment info = .ok (behind (size, alignment) info) := by
  have hoffset : alignUp size info.alignment < wordLimit := Nat.lt_of_le_of_lt (Nat.le_add_right _ _) h
  have hsum : alignUp size info.alignment + info.size < wordLimit := h
  simp only [addField, Checked.fit, if_pos hoffset, Checked.ok_bind, if_pos hsum]
  rfl

theorem addField_of_le (h : wordLimit ≤ (behind (size, alignment) info).1) :
    addField size alignment info = .error .overflow := by
  have hsum : ¬ alignUp size info.alignment + info.size < wordLimit := Nat.not_lt.2 h
  unfold addField Checked.fit
  split
  · rw [Checked.ok_bind, if_neg hsum]
    rfl
  · rfl

/-- Known fields are passed over, as long as they fit. -/
theorem structLayout_append (hfields : r.FieldTypes front types) (hpos : ∀ info ∈ types, 0 < info.alignment)
    (h : (types.foldl behind s).1 < wordLimit) : r.structLayout name s.1 s.2 (front ++ back) =
      r.structLayout name (types.foldl behind s).1 (types.foldl behind s).2 back := by
  induction hfields generalizing s with
  | nil => rfl
  | @cons field info front types hfield _ ih =>
    obtain ⟨-, hpos⟩ := List.forall_mem_cons.1 hpos
    have hsum : (behind s info).1 < wordLimit := Nat.lt_of_le_of_lt (le_foldl_behind hpos) h
    rw [List.cons_append, structLayout, hfield]
    dsimp only
    rw [addField_of_lt hsum]
    exact ih hpos h

/-- The first field that does not fit ends the layout. -/
theorem structLayout_overflows (hfields : r.FieldTypes front types) (hstart : s.1 < wordLimit)
    (h : wordLimit ≤ (types.foldl behind s).1) :
    (r.structLayout name s.1 s.2 (front ++ back)).run = .error .overflow := by
  induction hfields generalizing s with
  | nil => exact absurd hstart (Nat.not_lt.2 h)
  | @cons field info front types hfield _ ih =>
    rw [List.cons_append, structLayout, hfield]
    dsimp only
    rcases Nat.lt_or_ge (behind s info).1 wordLimit with hsum | hsum
    · rw [addField_of_lt hsum]
      exact ih hsum h
    · rw [addField_of_le hsum]
      rfl

theorem structLayout_nil_of_lt (h : alignUp size alignment < wordLimit) :
    (r.structLayout name size alignment []).run = .ok (.ok (alignUp size alignment, alignment)) := by
  rw [structLayout, Checked.fit, if_pos h]
  rfl

theorem structLayout_nil_of_le (h : wordLimit ≤ alignUp size alignment) :
    (r.structLayout name size alignment []).run = .error .overflow := by
  rw [structLayout, Checked.fit, if_neg (Nat.not_lt.2 h)]
  rfl

/-! ## Structures that are too large -/

/-- The fields in front of a place, all of known types, or a whole structure do not fit in a word. -/
def Outgrows (r : TypeRegistry) (fields : List StructField) : Prop :=
  (∃ front back types, fields = front ++ back ∧ r.FieldTypes front types ∧ wordLimit ≤ (extent types).1) ∨
    ∃ types, r.FieldTypes fields types ∧ wordLimit ≤ structSize types

/-- The types of all fields are known, or there is a first one that is not. -/
theorem fieldTypes_or_unknown (r : TypeRegistry) (fields : List StructField) : (∃ types, r.FieldTypes fields types) ∨
    ∃ front field back types, fields = front ++ field :: back ∧ r.FieldTypes front types ∧
      r.get? field.typeName = none := by
  induction fields with
  | nil => exact .inl ⟨[], .nil⟩
  | cons field fields ih =>
    cases hfield : r.get? field.typeName with
    | none => exact .inr ⟨[], field, fields, [], rfl, .nil, hfield⟩
    | some info =>
      obtain ⟨types, htypes⟩ | ⟨front, unknown, back, types, rfl, htypes, hunknown⟩ := ih
      · exact .inl ⟨info :: types, .cons hfield htypes⟩
      · exact .inr ⟨field :: front, unknown, back, info :: types, rfl, .cons hfield htypes, hunknown⟩

theorem FieldTypes.mem (h : r.FieldTypes fields types) : ∀ info ∈ types, info ∈ r.types := by
  induction h with
  | nil => simp
  | cons hfield _ ih => exact List.forall_mem_cons.2 ⟨List.mem_of_find?_eq_some hfield, ih⟩

end TypeRegistry

/-! ## Alignments -/

/-- The alignments there are, and sizes that keep the elements of an array aligned. -/
structure TypeInfo.Aligned (info : TypeInfo) : Prop where
  alignment : info.alignment = 1 ∨ info.alignment = 4 ∨ info.alignment = 8
  size : info.alignment ∣ info.size

theorem TypeInfo.Aligned.pos {info : TypeInfo} (h : info.Aligned) : 0 < info.alignment := by
  rcases h.alignment with h | h | h <;> omega

theorem TypeInfo.Aligned.dvd {info : TypeInfo} (h : info.Aligned) : info.alignment ∣ 8 := by
  rcases h.alignment with h | h | h <;> rw [h] <;> decide

namespace TypeRegistry

variable {r : TypeRegistry} {name : String} {fields : List StructField} {types : List TypeInfo} {d : TypeDefinition}

/-- All registered types are aligned. -/
def Aligned (r : TypeRegistry) : Prop := ∀ info ∈ r.types, info.Aligned

theorem FieldTypes.pos (h : r.FieldTypes fields types) (hr : r.Aligned) : ∀ info ∈ types, 0 < info.alignment :=
  fun info hinfo => (hr info (h.mem info hinfo)).pos

theorem FieldTypes.extent_alignment (h : r.FieldTypes fields types) (hr : r.Aligned) :
    (extent types).2 = 1 ∨ (extent types).2 = 4 ∨ (extent types).2 = 8 :=
  foldl_behind_alignment (P := fun a => a = 1 ∨ a = 4 ∨ a = 8) (.inl rfl)
    fun info hinfo => (hr info (h.mem info hinfo)).alignment

theorem FieldTypes.extent_pos (h : r.FieldTypes fields types) (hr : r.Aligned) : 0 < (extent types).2 := by
  rcases h.extent_alignment hr with h | h | h <;> omega

theorem structLayout_of_outgrows (hr : r.Aligned) (h : r.Outgrows fields) :
    (r.structLayout name 0 1 fields).run = .error .overflow := by
  have hzero : (0, 1).1 < wordLimit := by decide
  obtain ⟨front, back, types, rfl, htypes, hlarge⟩ | ⟨types, htypes, hlarge⟩ := h
  · exact structLayout_overflows (s := (0, 1)) htypes hzero hlarge
  · rw [← List.append_nil fields]
    rcases Nat.lt_or_ge (extent types).1 wordLimit with hextent | hextent
    · rw [structLayout_append (s := (0, 1)) htypes (htypes.pos hr) hextent]
      exact structLayout_nil_of_le hlarge
    · exact structLayout_overflows (s := (0, 1)) htypes hzero hextent

/-- All that can become of a layout. -/
theorem structLayout_cases (hr : r.Aligned) (name : String) (fields : List StructField) :
    (r.Outgrows fields ∧ (r.structLayout name 0 1 fields).run = .error .overflow) ∨
    ¬ r.Outgrows fields ∧
      ((∃ types, r.FieldTypes fields types ∧ Fits types ∧
        (r.structLayout name 0 1 fields).run = .ok (.ok (structSize types, (extent types).2))) ∨
      ∃ field ∈ fields, r.get? field.typeName = none ∧
        (r.structLayout name 0 1 fields).run = .ok (.error (.unknownFieldType name field.name field.typeName))) := by
  by_cases hlarge : r.Outgrows fields
  · exact .inl ⟨hlarge, structLayout_of_outgrows hr hlarge⟩
  refine .inr ⟨hlarge, ?_⟩
  obtain ⟨types, htypes⟩ | ⟨front, field, back, types, rfl, htypes, hfield⟩ := fieldTypes_or_unknown r fields
  · left
    have hsize : structSize types < wordLimit := Nat.not_le.1 fun h => hlarge (.inr ⟨types, htypes, h⟩)
    have hextent : (extent types).1 < wordLimit := Nat.lt_of_le_of_lt (le_alignUp (htypes.extent_pos hr)) hsize
    refine ⟨types, htypes, ⟨.of_lt (htypes.pos hr) hextent, .of_lt (htypes.extent_pos hr) hsize⟩, ?_⟩
    rw [← List.append_nil fields, structLayout_append (s := (0, 1)) htypes (htypes.pos hr) hextent]
    exact structLayout_nil_of_lt hsize
  · right
    have hextent : (extent types).1 < wordLimit :=
      Nat.not_le.1 fun h => hlarge (.inl ⟨front, field :: back, types, rfl, htypes, h⟩)
    refine ⟨field, by simp, hfield, ?_⟩
    rw [structLayout_append (s := (0, 1)) htypes (htypes.pos hr) hextent, structLayout, hfield]
    rfl

/-! ## Definitions -/

theorem not_outgrows_nil : ¬ r.Outgrows [] := by
  rintro (⟨front, back, types, hfields, htypes, hlarge⟩ | ⟨types, htypes, hlarge⟩)
  · obtain ⟨rfl, -⟩ := List.append_eq_nil_iff.1 hfields.symm
    cases htypes
    exact absurd hlarge (by decide)
  · cases htypes
    exact absurd hlarge (by decide)

/-- The layout of a definition, with all numbers on the way to it in words. -/
def LaidOut (r : TypeRegistry) (d : TypeDefinition) (layout : Nat × Nat) : Prop :=
  match d.kind with
  | .struct fields => ∃ types, r.FieldTypes fields types ∧ Fits types ∧ layout = (structSize types, (extent types).2)
  | .enum _ => layout = (1, 1)
  | _ => layout = (0, 1) ∨ ∃ info ∈ r.types, layout = (info.size, info.alignment)

/-- All that can become of the layout of a definition. -/
theorem layout_cases (hr : r.Aligned) (d : TypeDefinition) :
    (r.Outgrows d.fields ∧ (r.layout d).run = .error .overflow) ∨
    ¬ r.Outgrows d.fields ∧ ((∃ e, (r.layout d).run = .ok (.error e)) ∨
      ∃ layout, (r.layout d).run = .ok (.ok layout) ∧ r.LaidOut d layout) := by
  unfold layout LaidOut TypeDefinition.fields
  cases d.kind with
  | struct fields =>
    obtain ⟨hlarge, hrun⟩ | ⟨hlarge, ⟨types, htypes, hfits, hrun⟩ | ⟨field, -, -, hrun⟩⟩ :=
      structLayout_cases hr d.name fields
    · exact .inl ⟨hlarge, hrun⟩
    · exact .inr ⟨hlarge, .inr ⟨_, hrun, types, htypes, hfits, rfl⟩⟩
    · exact .inr ⟨hlarge, .inl ⟨_, hrun⟩⟩
  | enum variants => exact .inr ⟨not_outgrows_nil, .inr ⟨(1, 1), rfl, rfl⟩⟩
  | _ =>
    refine .inr ⟨not_outgrows_nil, .inr ?_⟩
    cases hinfo : r.get? d.name with
    | none => exact ⟨(0, 1), rfl, .inl rfl⟩
    | some info => exact ⟨(info.size, info.alignment), rfl, .inr ⟨info, List.mem_of_find?_eq_some hinfo, rfl⟩⟩

theorem laidOut_of_layout (hr : r.Aligned) {layout : Nat × Nat} (h : (r.layout d).run = .ok (.ok layout)) :
    r.LaidOut d layout := by
  obtain ⟨-, hrun⟩ | ⟨-, ⟨e, hrun⟩ | ⟨layout', hrun, hlaid⟩⟩ := layout_cases hr d
  · cases h.symm.trans hrun
  · cases h.symm.trans hrun
  · cases h.symm.trans hrun
    exact hlaid

/-- A definition that is laid out among aligned types is aligned. -/
theorem Aligned.typeOf (hr : r.Aligned) {layout : Nat × Nat} (h : r.LaidOut d layout) :
    (TypeRegistry.typeOf d layout).Aligned := by
  unfold LaidOut at h
  split at h
  · obtain ⟨types, htypes, -, rfl⟩ := h
    exact ⟨htypes.extent_alignment hr, dvd_alignUp⟩
  · cases h
    exact ⟨.inl rfl, Nat.dvd_refl 1⟩
  · obtain rfl | ⟨info, hinfo, rfl⟩ := h
    · exact ⟨.inl rfl, Nat.one_dvd 0⟩
    · exact ⟨(hr info hinfo).alignment, (hr info hinfo).size⟩

/-- All that can become of a definition among aligned types. -/
theorem define_cases_of_aligned (hr : r.Aligned) (d : TypeDefinition) :
    (r.Outgrows d.fields ∧ (define d).run.run r = .error .overflow) ∨
    ¬ r.Outgrows d.fields ∧ ((∃ e, (define d).run.run r = .ok (.error e, r)) ∨
      ∃ layout, (define d).run.run r = .ok (.ok (typeOf d layout), r.insert (typeOf d layout)) ∧
        r.LaidOut d layout) := by
  obtain ⟨hlarge, hrun⟩ | ⟨hlarge, ⟨e, hrun⟩ | ⟨layout, hrun, hlaid⟩⟩ := layout_cases hr d
  · exact .inl ⟨hlarge, define_of_fault hrun⟩
  · exact .inr ⟨hlarge, .inl ⟨e, define_of_error hrun⟩⟩
  · exact .inr ⟨hlarge, .inr ⟨layout, define_of_layout hrun, hlaid⟩⟩

end TypeRegistry
end NodeGraph
