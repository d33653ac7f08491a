import Mathlib
import NodeGraph.Proofs.Compile.Sound
import NodeGraph.Proofs.Lowering.Growth
import NodeGraph.Proofs.Types.Registry

/-!
# The registers of a program

Pins, locals, constants and watches have their registers in three tables, but under the keys of one map. A register is
made only under a key that is not there yet, and the key is its name. So the operand under the name of a register is
that of the register (`Storage.Filed`), and no two registers have one name, in one table or in two. This is kept by
every part of the walk, also by one that fails (`filing`). What a register looks like is settled when it is made
(`Register.Formed`).
-/
namespace NodeGraph

/-! ## The shape of a register -/

/-- A register is in order: it has a value for each element, only an array has another number of elements than one or
can grow, and its size is that of its type. -/
structure Register.Formed (types : TypeRegistry) (r : Register) : Prop where
  values : r.defaultValues.length = r.elementCount
  single : r.isArray = false → r.elementCount = 1 ∧ r.isDynamic = false
  grows : r.isDynamic = true → r.isArray = true
  type : ∃ info, types.get? r.typeName = some info ∧ r.size = info.size ∧ r.alignment = info.alignment

/-- A register of a watch: an array that can grow and starts with one element. -/
def Register.Watches (r : Register) : Prop := r.isArray = true ∧ r.isDynamic = true ∧ r.elementCount = 1

namespace Lowering

variable {types : TypeRegistry} {key typeName : String} {spec : RegisterSpec} {r : Register}

theorem length_resized (count : Nat) (fill : String) (values : List String) :
    (resized count fill values).length = count := by
  simp only [resized, List.length_append, List.length_take, List.length_replicate]
  omega

/-- A type that was looked up is registered under its own name. -/
theorem type_of_lookup {info : TypeInfo} (h : (types.lookup typeName).run = .ok (.ok info)) :
    ∃ found, types.get? info.name = some found ∧ info.size = found.size ∧ info.alignment = found.alignment := by
  have hget := TypeRegistry.lookup_eq_ok_iff.1 h
  have hname := TypeRegistry.name_of_get? hget
  exact ⟨info, hname ▸ hget, rfl, rfl⟩

theorem formed_buildRegister (h : (types.buildRegister key spec).run = .ok (.ok r)) : r.Formed types := by
  obtain ⟨info, hinfo, h⟩ := Typed.bind_eq_ok.1 h
  have htype := type_of_lookup hinfo
  dsimp only at h
  split at h
  · next harray =>
    obtain ⟨values, -, h⟩ := Typed.bind_eq_ok.1 h
    split at h
    · next count _ =>
      obtain ⟨zero, -, h⟩ := Typed.bind_eq_ok.1 h
      cases h
      exact ⟨length_resized count zero values, by simp [harray], by simp, htype⟩
    · cases h
      exact ⟨rfl, by simp [harray], by simp [harray], htype⟩
  · obtain ⟨value, -, h⟩ := Typed.bind_eq_ok.1 h
    cases h
    exact ⟨rfl, fun _ => ⟨rfl, rfl⟩, by simp, htype⟩

theorem formed_buildWatch (h : (types.buildWatch key typeName).run = .ok (.ok r)) : r.Formed types ∧ r.Watches := by
  obtain ⟨info, hinfo, h⟩ := Typed.bind_eq_ok.1 h
  obtain ⟨zero, -, h⟩ := Typed.bind_eq_ok.1 h
  cases h
  exact ⟨⟨rfl, by simp, fun _ => rfl, type_of_lookup hinfo⟩, rfl, rfl, rfl⟩

/-- Whatever a register was made for, it is in order, and those of the debug memory are made for watches. -/
theorem Made.formed {t : Tree} {sharing : Sharing} {space : MemorySpace} (h : Made types t sharing space r) :
    r.Formed types ∧ (space = .debug → r.Watches) := by
  obtain ⟨build, hmakes, hbuild⟩ := h
  generalize r.name = name at hmakes
  cases hmakes with
  | watch => exact ⟨(formed_buildWatch hbuild).1, fun _ => (formed_buildWatch hbuild).2⟩
  | _ => exact ⟨formed_buildRegister hbuild, fun hspace => by cases hspace⟩

/-! ## Registers under their names -/

namespace Storage

variable {s : Storage} {space space' : MemorySpace} {table table' : MemoryTable}

/-- The operand under the name of a register is that of the register. -/
def Filed (s : Storage) : Prop := ∀ key o, s.Named key o → s.keyed.lookup key = some o

/-- Two registers of one name are one register. -/
theorem Filed.unique (h : s.Filed) (ht : s.table? space = some table) (ht' : s.table? space' = some table')
    {i j : Nat} {r' : Register} (hr : table.registers[i]? = some r) (hr' : table'.registers[j]? = some r')
    (hname : r.name = r'.name) : space = space' ∧ i = j := by
  have ho := h r.name ⟨space, i, none⟩ ⟨rfl, table, r, ht, hr, rfl⟩
  have ho' := h r'.name ⟨space', j, none⟩ ⟨rfl, table', r', ht', hr', rfl⟩
  rw [← hname, ho] at ho'
  cases ho'
  exact ⟨rfl, rfl⟩

theorem Filed.nodup (h : s.Filed) (ht : s.table? space = some table) : (table.registers.map Register.name).Nodup := by
  rw [List.nodup_iff_getElem?_ne_getElem?]
  intro i j hlt hlength hsame
  rw [List.length_map] at hlength
  have hi := List.getElem?_eq_getElem (Nat.lt_trans hlt hlength)
  have hj := List.getElem?_eq_getElem hlength
  rw [List.getElem?_map, List.getElem?_map, hi, hj] at hsame
  have hij := (h.unique ht ht hi hj (Option.some.inj hsame)).2
  omega

theorem Filed.disjoint (h : s.Filed) (ht : s.table? space = some table) (ht' : s.table? space' = some table')
    (hne : space ≠ space') : (table.registers.map Register.name).Disjoint (table'.registers.map Register.name) := by
  intro name hmem hmem'
  obtain ⟨r, hr, rfl⟩ := List.mem_map.1 hmem
  obtain ⟨r', hr', hname⟩ := List.mem_map.1 hmem'
  obtain ⟨i, hi⟩ := List.getElem?_of_mem hr
  obtain ⟨j, hj⟩ := List.getElem?_of_mem hr'
  exact hne (h.unique ht ht' hi hj hname.symm).1

end Storage

/-- The walk makes registers only under their names, and takes no name away. -/
def filing : Account where
  moves _ _ s s' := s.storage.Extends s'.storage ∧ s.storage.Files s'.storage
  lowers _ s s' := s.storage.Extends s'.storage ∧ s.storage.Files s'.storage

theorem filing_lawful (cx : Context) : filing.Lawful cx := by
  have hself (storage : Storage) : storage.Extends storage ∧ storage.Files storage := ⟨.refl _, .refl _⟩
  have hruled : filing.Ruled cx :=
    { refl := fun _ s => hself s.storage
      trans := fun h h' => ⟨h.1.trans h'.1, h.2.trans h'.2 h'.1⟩
      once := fun _ _ _ _ h _ => h
      skip := fun {_ s} _ _ _ => hself s.storage
      of_lowers := fun h => h
      aside := fun {_ s _} hs => by
        rw [hs]
        exact hself s.storage
      error := fun _ s _ _ _ => hself s.storage
      warning := fun _ s _ _ => hself s.storage
      failed := fun _ s => hself s.storage
      push := fun {_ s _ _} _ _ _ => hself s.storage
      land := fun {_ s _ _} _ _ => hself s.storage }
  have hstores : filing.Stores :=
    { storage := fun h h' => ⟨h, h'⟩
      remember := fun _ h => h
      publish := fun _ s _ _ => hself s.storage
      mirror := fun _ s _ => hself s.storage }
  exact hruled.lawful hstores fun he hkind hlower =>
    hruled.pays_lowerEntry he hlower (fun s _ => hself s.storage) hkind

end Lowering

namespace Tree

open Lowering

variable {t : Tree} {env : Environment} {options : CompileOptions} {sharing : Sharing} {s : State}

theorem filed_of_lowered (h : t.loweredWith env options sharing = .ok s) : s.storage.Filed := by
  obtain ⟨checked, prepared, hpasses⟩ := exists_passes h
  have hpass {pass : Pass} {s s' : State}
      (hrun : Context.lowerRoots ⟨t, env, options, sharing, pass⟩ s = .ok ((), s')) :
      s.storage.Extends s'.storage ∧ s.storage.Files s'.storage :=
    (filing_lawful _).moves_of_lowerRoots (fun _ _ => trivial) trivial hrun 0
  obtain ⟨-, hsetup⟩ := hpass hpasses.prepares
  obtain ⟨hkeeps, hemit⟩ := hpass hpasses.emits
  intro key o ho
  refine (hsetup.trans hemit hkeeps key o ho).resolve_left ?_
  -- Before the passes there are no registers.
  rw [hpasses.checked_eq]
  rintro ⟨-, table, r, ht, hr, -⟩
  cases hspace : o.memory <;> rw [hspace] at ht <;> cases ht <;> cases hr

end Tree

variable {t : Tree} {env : Environment} {options : CompileOptions} {p : Program} {errors : Nat} {report : Report}

/-- In every program, also in one with errors, the registers of all tables have distinct names and are in order, and
those of the debug memory are watches. -/
theorem compilePartial_registers (h : t.compilePartial env options = .ok ⟨.ok (p, errors), report⟩) :
    ((p.literals.registers ++ p.work.registers ++ p.debug.registers).map Register.name).Nodup ∧
      (∀ r ∈ p.literals.registers ++ p.work.registers ++ p.debug.registers, r.Formed env.types) ∧
      ∀ r ∈ p.debug.registers, r.Watches := by
  obtain ⟨-, s, hs, rfl, -, -⟩ := Tree.compilePartial_eq_ok_iff.1 h
  obtain ⟨sharing, -, hlowered⟩ := Checked.bind_eq_ok.1 hs
  have hfiled := Tree.filed_of_lowered hlowered
  have hformed {space : MemorySpace} {table : MemoryTable} (ht : s.storage.table? space = some table) {r : Register}
      (hr : r ∈ table.registers) : r.Formed env.types ∧ (space = .debug → r.Watches) :=
    (Tree.made_of_lowered hlowered ht hr).formed
  have hliterals : s.storage.table? .literal = some (s.program env.externals).literals := rfl
  have hwork : s.storage.table? .work = some (s.program env.externals).work := rfl
  have hdebug : s.storage.table? .debug = some (s.program env.externals).debug := rfl
  refine ⟨?_, ?_, fun r hr => (hformed hdebug hr).2 rfl⟩
  · rw [List.map_append, List.map_append]
    refine ((hfiled.nodup hliterals).append (hfiled.nodup hwork) (hfiled.disjoint hliterals hwork (by decide))).append
      (hfiled.nodup hdebug) ?_
    exact List.disjoint_append_left.2
      ⟨hfiled.disjoint hliterals hdebug (by decide), hfiled.disjoint hwork hdebug (by decide)⟩
  · intro r hr
    rcases List.mem_append.1 hr with hr | hr
    · rcases List.mem_append.1 hr with hr | hr
      · exact (hformed hliterals hr).1
      · exact (hformed hwork hr).1
    · exact (hformed hdebug hr).1

/-- A call makes some values, and another has a pin of an unknown type. -/
def scalesTree : Tree where
  graph := {
    nodes := [⟨"Go", .event "Go", [], none⟩, ⟨"Make", .unit "make", [0, 1], none⟩, ⟨"Use", .unit "use", [2], none⟩]
    pins := [
      { node := 1, name := "Scale", direction := .input, typeName := "int32", defaultValue := "2" },
      { node := 1, name := "Values", direction := .output, typeName := "int32", isArray := true },
      { node := 2, name := "Shape", direction := .output, typeName := "shape" }] }
  exprs := [
    { kind := .entry, name := "Go", children := [1, 4], proxy := some ⟨[], .node 0⟩ },
    { kind := .call, name := "Make", children := [2, 3], proxy := some ⟨[], .node 1⟩ },
    { kind := .literal, name := "Scale", proxy := some ⟨[], .pin 0⟩ },
    { kind := .var, name := "Values", proxy := some ⟨[], .pin 1⟩ },
    { kind := .call, name := "Use", children := [5], proxy := some ⟨[], .node 2⟩ },
    { kind := .var, name := "Shape", proxy := some ⟨[], .pin 2⟩ }]
  roots := [0]

def scalesEnv : Environment where
  catalog := ⟨[⟨"make", [⟨"Scale", .input⟩, ⟨"Values", .output⟩]⟩, ⟨"use", [⟨"Shape", .output⟩]⟩]⟩

theorem ofTree_scalesTree : Sharing.ofTree scalesTree = .ok ⟨[]⟩ := rfl

theorem lowered_scalesTree : ∃ s, scalesTree.lowered scalesEnv { watchedPins := ["Make.Values"] } = .ok s ∧
    (s.storage.literals.registers.map Register.name = ["Make.Scale::Const"] ∧
      s.storage.work.registers.map Register.name = ["Make.Values"] ∧
      s.storage.debug.registers.map Register.name = ["Make.Values::Debug"]) ∧ s.report.errors = 1 := by
  rw [Tree.lowered_eq ofTree_scalesTree]
  exact Checked.exists_ok_of_any (by decide +kernel)

/-- The constant, the values and their watch are three registers, though the second call failed. -/
theorem compilePartial_registers_scalesTree : ∃ p report,
    scalesTree.compilePartial scalesEnv { watchedPins := ["Make.Values"] } = .ok ⟨.ok (p, 1), report⟩ ∧
      (p.literals.registers ++ p.work.registers ++ p.debug.registers).map Register.name =
        ["Make.Scale::Const", "Make.Values", "Make.Values::Debug"] ∧
      ((p.literals.registers ++ p.work.registers ++ p.debug.registers).map Register.name).Nodup ∧
      (∀ r ∈ p.literals.registers ++ p.work.registers ++ p.debug.registers, r.Formed scalesEnv.types) ∧
      ∀ r ∈ p.debug.registers, r.Watches := by
  obtain ⟨s, hs, ⟨hliterals, hwork, hdebug⟩, herrors⟩ := lowered_scalesTree
  have hp : scalesTree.compilePartial scalesEnv { watchedPins := ["Make.Values"] } =
      .ok ⟨.ok (s.program [], 1), _⟩ :=
    Tree.compilePartial_eq_ok_iff.2 ⟨rfl, s, hs, rfl, herrors.symm, rfl⟩
  refine ⟨_, _, hp, ?_, compilePartial_registers hp⟩
  rw [List.map_append, List.map_append]
  show s.storage.literals.registers.map _ ++ s.storage.work.registers.map _ ++ s.storage.debug.registers.map _ = _
  rw [hliterals, hwork, hdebug]
  rfl

end NodeGraph
