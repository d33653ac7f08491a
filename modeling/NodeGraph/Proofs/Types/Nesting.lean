import Mathlib.Data.List.Perm.Subperm
import Mathlib.Logic.Relation
import NodeGraph.Lowering.Register

/-!
# Types that do not contain themselves

`zeroWithin` and `decodeWithin` follow the fields of structures down to a depth of one more than there
are types. How they can end is proved once for all registries, of types that can be followed down
(`Followed.ends_decodeWithin`). If no type contains itself, the types on the way down are registered and
pairwise different, so the depth is never used up: making a register ends in a register or in a type error,
never in a fault (`Acyclic.tolerated_none`). Otherwise running out of depth is the only fault there is
(`tolerated_endlessType`).
-/
namespace NodeGraph

/-! ## How typed values end -/

/-- `x` is a value or a type error, but no fault. -/
def Typed.Answers {α : Type} (x : Typed α) : Prop := ∃ r, x.run = .ok r

/-- The faults and the type errors that `x` can be have given properties. -/
structure Typed.Ends {α : Type} (F : Fault → Prop) (E : TypeError → Prop) (x : Typed α) : Prop where
  fault : ∀ f, x.run = .error f → F f
  error : ∀ e, x.run = .ok (.error e) → E e

namespace Typed

variable {α β : Type} {F : Fault → Prop} {E : TypeError → Prop} {x : Typed α} {f : α → Typed β}

theorem Ends.answers (h : Ends (fun _ => False) E x) : Answers x := by
  cases hrun : x.run with
  | ok r => exact ⟨r, hrun⟩
  | error fault => exact (h.fault fault hrun).elim

theorem ends_pure (a : α) : Ends F E (pure a) where
  fault _ h := by cases h
  error _ h := by cases h

theorem ends_throw {e : TypeError} (he : E e) : Ends F E (throw e : Typed α) where
  fault _ h := by cases h
  error _ h := by
    cases h
    exact he

theorem Ends.bind (hx : Ends F E x) (hf : ∀ a, Ends F E (f a)) : Ends F E (x >>= f) := by
  have hrun : (x >>= f).run = x.run >>= ExceptT.bindCont f := rfl
  cases hx' : x.run with
  | error fault =>
    rw [hx'] at hrun
    refine ⟨fun _ h => ?_, fun _ h => ?_⟩ <;> cases hrun.symm.trans h
    exact hx.fault fault hx'
  | ok r =>
    rw [hx'] at hrun
    cases r with
    | ok a => exact ⟨fun _ h => (hf a).fault _ (hrun.symm.trans h), fun _ h => (hf a).error _ (hrun.symm.trans h)⟩
    | error e =>
      refine ⟨fun _ h => ?_, fun _ h => ?_⟩ <;> cases hrun.symm.trans h
      exact hx.error e hx'

theorem ends_mapM {l : List α} (h : ∀ a ∈ l, Ends F E (f a)) : Ends F E (l.mapM f) := by
  induction l with
  | nil => exact ends_pure []
  | cons a l ih =>
    rw [List.mapM_cons]
    refine (h a (by simp)).bind fun b => ?_
    refine (ih fun a' ha => h a' (by simp [ha])).bind fun bs => ?_
    exact ends_pure (b :: bs)

end Typed

namespace TypeRegistry

open Typed

variable {r : TypeRegistry} {name : String} {passed : List String} {F : Fault → Prop} {E : TypeError → Prop}

theorem ends_lookup_bind {β : Type} {f : TypeInfo → Typed β} (hnone : r.get? name = none → E (.unknownType name))
    (h : ∀ info, r.get? name = some info → Ends F E (f info)) : Ends F E (r.lookup name >>= f) := by
  unfold lookup
  cases hi : r.get? name with
  | some info => exact h info hi
  | none => exact ends_throw (hnone hi)

/-! ## Nesting -/

/-- Whether `outer` is a structure with a field of type `inner`. -/
def Contains (r : TypeRegistry) (outer inner : String) : Prop :=
  ∃ info fields, r.get? outer = some info ∧ info.kind = .struct fields ∧
    ∃ field ∈ fields, field.typeName = inner

/-- No type contains itself, directly or through other types. -/
def Acyclic (r : TypeRegistry) : Prop := ∀ name, ¬ Relation.TransGen r.Contains name name

/-- The types passed on the way down to `name`, none of them twice. -/
structure Above (r : TypeRegistry) (name : String) (passed : List String) : Prop where
  distinct : passed.Nodup
  registered : ∀ n ∈ passed, (r.get? n).isSome
  contain : ∀ n ∈ passed, Relation.TransGen r.Contains n name

theorem above_nil (r : TypeRegistry) (name : String) : r.Above name [] :=
  ⟨.nil, by simp, by simp⟩

theorem Above.length_le (h : r.Above name passed) : passed.length ≤ r.types.length := by
  have hsub : passed ⊆ r.types.map (·.name) := by
    intro n hn
    obtain ⟨info, hi⟩ := Option.isSome_iff_exists.1 (h.registered n hn)
    have hname := List.find?_some hi
    exact List.mem_map.2 ⟨info, List.mem_of_find?_eq_some hi, by simpa using hname⟩
  simpa using (List.subperm_of_subset h.distinct hsub).length_le

/-- One step further down: a structure without itself above it can be passed. -/
theorem Above.cons {inner : String} (hr : r.Acyclic) (h : r.Above name passed) (hc : r.Contains name inner) :
    r.Above inner (name :: passed) := by
  obtain ⟨info, _, hi, _⟩ := id hc
  refine ⟨List.nodup_cons.2 ⟨fun hn => hr name (h.contain name hn), h.distinct⟩, ?_, ?_⟩
  · intro n hn
    rcases List.mem_cons.1 hn with rfl | hn
    · simp [hi]
    · exact h.registered n hn
  · intro n hn
    rcases List.mem_cons.1 hn with rfl | hn
    · exact .single hc
    · exact (h.contain n hn).tail hc

/-! ## Zero values and default texts -/

/-- Types can be followed down from a depth if they are in `D`: there is a fault when the depth is used up, and a
type error at a type that is not registered. -/
structure Followed (r : TypeRegistry) (F : Fault → Prop) (E : TypeError → Prop) (D : Nat → String → Prop) :
    Prop where
  stop : ∀ {name}, D 0 name → F (.endlessType name)
  unknown : ∀ {depth name}, D (depth + 1) name → r.get? name = none → E (.unknownType name)
  inner : ∀ {depth name inner}, D (depth + 1) name → r.Contains name inner → D depth inner

theorem memberOf_ok {fields : List StructField} {item value : List Char} {position : Nat}
    {fieldType : String} (h : memberOf fields item = .ok (position, fieldType, value)) :
    ∃ field ∈ fields, field.typeName = fieldType := by
  unfold memberOf at h
  split at h
  · cases h
  · split at h
    · cases h
    · next key _ _ field found hfind =>
      cases h
      have hmem := List.mem_of_find?_eq_some hfind
      exact ⟨field, (List.mem_zipIdx' hmem).2 ▸ List.getElem_mem _, rfl⟩

section Followed

variable {D : Nat → String → Prop} {depth : Nat} (h : r.Followed F E D)

include h

theorem Followed.ends_zeroWithin (hd : D depth name) : Ends F E (r.zeroWithin depth name) := by
  induction depth generalizing name with
  | zero =>
    refine ⟨fun _ hfault => ?_, fun _ herror => by cases herror⟩
    cases hfault
    exact h.stop hd
  | succ depth ih =>
    unfold zeroWithin
    refine ends_lookup_bind (h.unknown hd) fun info hi => ?_
    split
    case h_8 fields hk =>
      refine (ends_mapM fun field hf => ?_).bind fun values => ends_pure _
      exact (ih (h.inner hd ⟨info, fields, hi, hk, field, hf, rfl⟩)).bind fun v => ends_pure _
    all_goals exact ends_pure _

theorem Followed.ends_decodeWithin (hinvalid : ∀ typeName text reason, E (.invalidDefault typeName text reason))
    (hd : D depth name) (text : List Char) : Ends F E (r.decodeWithin depth name text) := by
  induction depth generalizing name text with
  | zero =>
    refine ⟨fun _ hfault => ?_, fun _ herror => by cases herror⟩
    cases hfault
    exact h.stop hd
  | succ depth ih =>
    unfold decodeWithin
    refine ends_lookup_bind (h.unknown hd) fun info hi => ?_
    have below : ∀ {fields : List StructField} {fieldType : String}, info.kind = .struct fields →
        (∃ field ∈ fields, field.typeName = fieldType) → D depth fieldType :=
      fun hk hfield => h.inner hd ⟨info, _, hi, hk, hfield⟩
    dsimp only
    split
    · exact h.ends_zeroWithin hd
    · split
      · next fields hk =>
        split
        · exact ends_throw (hinvalid _ _ _)
        · refine (ends_mapM fun item _ => ?_).bind fun values =>
            (ends_mapM fun field hf => ?_).bind fun complete => ends_pure _
          · split
            · exact ends_throw (hinvalid _ _ _)
            · next position fieldType value hm =>
              exact (ih (below hk (memberOf_ok hm)) value).bind fun v => ends_pure _
          · split
            · exact ends_pure _
            · have hmem : field.1 ∈ fields := (List.mem_zipIdx' hf).2 ▸ List.getElem_mem _
              exact (h.ends_zeroWithin (below hk ⟨_, hmem, rfl⟩)).bind fun v => ends_pure _
      · split
        · exact ends_pure _
        · exact ends_throw (hinvalid _ _ _)
      · exact ends_pure _

end Followed

/-! ## Tolerated faults -/

/-- Every fault that making a register may end in is one of `F`. -/
structure Tolerated (r : TypeRegistry) (F : Fault → Prop) : Prop where
  register : ∀ {name spec fault}, r.buildRegister name spec = .error fault → F fault
  watch : ∀ {name typeName fault}, r.buildWatch name typeName = .error fault → F fault

theorem tolerated_all (r : TypeRegistry) : r.Tolerated fun _ => True := ⟨fun _ => trivial, fun _ => trivial⟩

/-- Making a register has only the faults of following types down. -/
theorem Followed.tolerated {D : Nat → String → Prop} (h : r.Followed F (fun _ => True) D)
    (hd : ∀ name, D r.depthBound name) : r.Tolerated F := by
  have hzero (name : String) := h.ends_zeroWithin (hd name)
  have hdecode (name : String) (text : List Char) :=
    h.ends_decodeWithin (fun _ _ _ => trivial) (hd name) text
  refine ⟨fun {name spec fault} hfault => ?_, fun {name typeName fault} hfault => ?_⟩
  · suffices hbuild : Ends F (fun _ => True) (r.buildRegister name spec) from hbuild.fault fault hfault
    refine ends_lookup_bind (fun _ => trivial) fun info _ => ?_
    dsimp only
    split
    · have harray : Ends F (fun _ => True) (r.decodeArray spec.typeName spec.defaultText) := by
        unfold decodeArray
        split
        · exact ends_throw trivial
        · exact ends_mapM fun item _ => hdecode _ _
      refine harray.bind fun values => ?_
      split
      · exact (hzero _).bind fun zero => ends_pure _
      · exact ends_pure _
    · exact (hdecode _ _).bind fun value => ends_pure _
  · suffices hbuild : Ends F (fun _ => True) (r.buildWatch name typeName) from hbuild.fault fault hfault
    exact ends_lookup_bind (fun _ => trivial) fun info _ => (hzero _).bind fun zero => ends_pure _

/-- Making a register has no other fault than a type that is followed down without an end. -/
theorem tolerated_endlessType (r : TypeRegistry) : r.Tolerated fun f => ∃ name, f = .endlessType name := by
  have hall : r.Followed (fun f => ∃ name, f = .endlessType name) (fun _ => True) fun _ _ => True :=
    ⟨fun {name} _ => ⟨name, rfl⟩, fun _ _ => trivial, fun _ _ => trivial⟩
  exact hall.tolerated fun _ => trivial

section Acyclic

variable (hr : r.Acyclic)

include hr

/-- Where no type contains itself, the depth is not used up. -/
theorem Acyclic.followed : r.Followed (fun _ => False) (fun _ => True) fun depth name =>
    ∃ passed, r.Above name passed ∧ r.types.length < passed.length + depth where
  stop := by
    rintro name ⟨passed, habove, hd⟩
    have := habove.length_le
    omega
  unknown _ _ := trivial
  inner := by
    rintro depth name inner ⟨passed, habove, hd⟩ hc
    exact ⟨name :: passed, habove.cons hr hc, by rw [List.length_cons]; omega⟩

omit hr in
theorem exists_above (name : String) :
    ∃ passed, r.Above name passed ∧ r.types.length < passed.length + r.depthBound :=
  ⟨[], r.above_nil name, by simp [depthBound]⟩

/-- Where no type contains itself, there is no fault to tolerate. -/
theorem Acyclic.tolerated_none : r.Tolerated fun _ => False := hr.followed.tolerated exists_above

theorem answers_zeroValue (name : String) : Answers (r.zeroValue name) :=
  (hr.followed.ends_zeroWithin (exists_above name)).answers

theorem answers_decode (name text : String) : Answers (r.decode name text) :=
  (hr.followed.ends_decodeWithin (fun _ _ _ => trivial) (exists_above name) _).answers

end Acyclic

theorem builtin_acyclic : builtin.Acyclic := by
  intro name h
  obtain ⟨_, ⟨info, fields, hi, hk, _⟩, _⟩ := Relation.TransGen.head'_iff.1 h
  have hmem := List.mem_of_find?_eq_some hi
  simp only [builtin, List.mem_cons, List.not_mem_nil, or_false] at hmem
  rcases hmem with rfl | rfl | rfl | rfl | rfl | rfl | rfl <;> cases hk

end TypeRegistry
end NodeGraph
