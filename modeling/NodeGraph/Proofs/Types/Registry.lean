import NodeGraph.Proofs.Outcome

/-!
# Registries

A registry is what definitions make of the built-in types, one after the other. A definition puts its type under its
name and leaves the other names alone (`get?_insert`). The fields of a structure are looked up when it is defined, and
no name is ever lost, so the types of all fields are registered (`Reachable.closed`), whatever was defined again.
-/
namespace NodeGraph

namespace TypeRegistry

variable {r r' : TypeRegistry} {name : String} {info : TypeInfo} {d : TypeDefinition}
  {fields : List StructField} {layout : Nat × Nat} {e : TypeError}

/-! ## Names -/

theorem name_of_get? (h : r.get? name = some info) : info.name = name := by
  simpa using List.find?_some h

theorem lookup_eq_ok_iff : (r.lookup name).run = .ok (.ok info) ↔ r.get? name = some info := by
  unfold lookup
  cases r.get? name with
  | none =>
    constructor <;>
    · intro h
      cases h
  | some found =>
    constructor <;>
    · intro h
      cases h
      rfl

/-- A type is found under its name, and the other names are found as before. -/
theorem get?_insert : (r.insert info).get? name = if info.name = name then some info else r.get? name := by
  unfold insert
  split
  · next hfound =>
    -- The places do not change, so the search passes over the same types as before.
    have hname (t : TypeInfo) : (if t.name = info.name then info else t).name = t.name := by
      split
      · next h => exact h.symm
      · rfl
    unfold get? at hfound ⊢
    rw [List.find?_map, show ((fun t : TypeInfo => decide (t.name = name)) ∘
      fun t => if t.name = info.name then info else t) = fun t => decide (t.name = name) from
        funext fun t => by simp [hname]]
    split
    · next h =>
      subst h
      obtain ⟨found, hfound⟩ := Option.isSome_iff_exists.1 hfound
      have hsame : found.name = info.name := by simpa using List.find?_some hfound
      rw [hfound, Option.map_some, if_pos hsame]
    · next h =>
      cases hother : r.types.find? (·.name = name) with
      | none => rfl
      | some found =>
        have hsame : found.name = name := by simpa using List.find?_some hother
        rw [Option.map_some, if_neg fun h' => h (h'.symm.trans hsame)]
  · next hnone =>
    unfold get? at hnone ⊢
    rw [Bool.not_eq_true, Option.isSome_eq_false_iff, Option.isNone_iff_eq_none] at hnone
    rw [List.find?_append]
    split
    · next h =>
      subst h
      rw [hnone]
      simp
    · next h => simp [h]

/-! ## Definitions -/

/-- The type that a definition with a layout stands for. -/
def typeOf (d : TypeDefinition) (layout : Nat × Nat) : TypeInfo := ⟨d.name, d.kind, layout.1, layout.2⟩

/-- A definition asks for its layout, then puts its type into the registry and looks it up there. -/
theorem run_define : (define d).run.run r = (r.layout d).run >>= fun answer => match answer with
    | .ok layout =>
      ((r.insert (typeOf d layout)).lookup d.name).run >>= fun found => .ok (found, r.insert (typeOf d layout))
    | .error e => .ok (.error e, r) := by
  show ((r.layout d).run >>= fun answer => .ok (answer, r)) >>= _ = _
  cases (r.layout d).run with
  | error fault => rfl
  | ok answer => cases answer <;> rfl

/-- A definition with a layout is put under its name and found there. -/
theorem define_of_layout (h : (r.layout d).run = .ok (.ok layout)) :
    (define d).run.run r = .ok (.ok (typeOf d layout), r.insert (typeOf d layout)) := by
  have hfound : ((r.insert (typeOf d layout)).lookup d.name).run = .ok (.ok (typeOf d layout)) := by
    rw [lookup_eq_ok_iff, get?_insert]
    exact if_pos rfl
  rw [run_define, h, Checked.ok_bind]
  dsimp only
  rw [hfound, Checked.ok_bind]

/-- A definition without a layout leaves the registry as it is. -/
theorem define_of_error (h : (r.layout d).run = .ok (.error e)) : (define d).run.run r = .ok (.error e, r) := by
  rw [run_define, h, Checked.ok_bind]

theorem define_of_fault {fault : Fault} (h : (r.layout d).run = .error fault) :
    (define d).run.run r = .error fault := by
  rw [run_define, h]
  rfl

/-- All that can become of a definition. -/
theorem define_cases {answer : Except TypeError TypeInfo} (h : (define d).run.run r = .ok (answer, r')) :
    (∃ e, (r.layout d).run = .ok (.error e) ∧ answer = .error e ∧ r' = r) ∨
      ∃ layout, (r.layout d).run = .ok (.ok layout) ∧ answer = .ok (typeOf d layout) ∧
        r' = r.insert (typeOf d layout) := by
  cases hlayout : (r.layout d).run with
  | error fault =>
    rw [define_of_fault hlayout] at h
    cases h
  | ok result =>
    cases result with
    | error e =>
      rw [define_of_error hlayout] at h
      cases h
      exact .inl ⟨e, rfl, rfl, rfl⟩
    | ok layout =>
      rw [define_of_layout hlayout] at h
      cases h
      exact .inr ⟨layout, rfl, rfl, rfl⟩

theorem register_of_layout (h : (r.layout d).run = .ok (.ok layout)) :
    (r.register d).run = .ok (.ok (r.insert (typeOf d layout), typeOf d layout)) := by
  unfold register
  rw [define_of_layout h]
  rfl

theorem register_of_error (h : (r.layout d).run = .ok (.error e)) : (r.register d).run = .ok (.error e) := by
  unfold register
  rw [define_of_error h]
  rfl

theorem register_eq_ok (h : (r.register d).run = .ok (.ok (r', info))) :
    ∃ size alignment, (r.layout d).run = .ok (.ok (size, alignment)) ∧ info = ⟨d.name, d.kind, size, alignment⟩ ∧
      r' = r.insert info := by
  obtain ⟨⟨answer, left⟩, hdefine, h⟩ := Typed.bind_eq_ok.1 h
  obtain ⟨found, hanswer, h⟩ := Typed.bind_eq_ok.1 h
  cases h
  obtain ⟨⟨answer', left'⟩, hdefine, heq⟩ := Checked.map_eq_ok.1 hdefine
  cases heq
  cases hanswer
  obtain ⟨e, -, hanswer, -⟩ | ⟨⟨size, alignment⟩, hlayout, hanswer, rfl⟩ := define_cases hdefine
  · cases hanswer
  · cases hanswer
    exact ⟨size, alignment, hlayout, rfl, rfl⟩

/-- A layout is found only for fields of registered types. -/
theorem isSome_of_structLayout {size alignment : Nat}
    (h : (r.structLayout name size alignment fields).run = .ok (.ok layout)) :
    ∀ field ∈ fields, (r.get? field.typeName).isSome = true := by
  induction fields generalizing size alignment with
  | nil => simp
  | cons field fields ih =>
    unfold structLayout at h
    split at h
    · cases h
    · next found hfound =>
      obtain ⟨⟨size', alignment'⟩, -, h⟩ := Typed.bind_eq_ok.1 h
      exact List.forall_mem_cons.2 ⟨by rw [hfound]; rfl, ih h⟩

/-! ## Registries -/

/-- What can come of the built-in types. A definition that fails leaves the registry as it is. -/
inductive Reachable : TypeRegistry → Prop
  | builtin : Reachable builtin
  | register {r r' : TypeRegistry} {d : TypeDefinition} {info : TypeInfo} (hr : Reachable r)
    (h : (r.register d).run = .ok (.ok (r', info))) : Reachable r'

/-- The fields of all structures are of registered types. -/
def Closed (r : TypeRegistry) : Prop := ∀ {name info fields}, r.get? name = some info → info.kind = .struct fields →
  ∀ field ∈ fields, (r.get? field.typeName).isSome = true

theorem isSome_get?_insert (h : (r.get? name).isSome = true) : ((r.insert info).get? name).isSome = true := by
  rw [get?_insert]
  split
  · rfl
  · exact h

theorem Closed.register (hr : r.Closed) (h : (r.register d).run = .ok (.ok (r', info))) : r'.Closed := by
  obtain ⟨size, alignment, hlayout, rfl, rfl⟩ := register_eq_ok h
  intro name found fields hfound hkind field hfield
  refine isSome_get?_insert ?_
  rw [get?_insert] at hfound
  split at hfound
  · cases hfound
    unfold layout at hlayout
    rw [show d.kind = .struct fields from hkind] at hlayout
    exact isSome_of_structLayout hlayout field hfield
  · exact hr hfound hkind field hfield

theorem Reachable.closed (h : r.Reachable) : r.Closed := by
  induction h with
  | builtin =>
    intro name info fields hinfo hkind
    have hmem := List.mem_of_find?_eq_some hinfo
    simp only [TypeRegistry.builtin, List.mem_cons, List.not_mem_nil, or_false] at hmem
    rcases hmem with rfl | rfl | rfl | rfl | rfl | rfl | rfl <;> cases hkind
  | register _ h ih => exact ih.register h

end TypeRegistry
end NodeGraph
