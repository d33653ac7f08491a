import Mathlib
import NodeGraph.Proofs.Compile.SeparateRegisters
import NodeGraph.Proofs.Compile.Variables

/-!
# Which types are checked

A type is looked up when a register is made, so every register of a program has a registered type. Pins that
share a register do not make one each: it has the type of the least of them, or that of a variable, and the
types of the other pins are never looked at. A pin of an unknown type that is linked to one of a known type
compiles (`fuzzyTree_compiles`).

What is checked are the types with which values are stored (`stored_types_registered`): those of constants, of
the least pin of each group, of locals, and of the first pin of each parameter that is lowered.
-/
namespace NodeGraph

open Lowering

/-! ## Types of registers -/

/-- A type of that name is registered. -/
def TypeRegistry.Registers (r : TypeRegistry) (name : String) : Prop := ∃ info, r.get? name = some info

namespace Lowering

variable {types : TypeRegistry} {key typeName : String} {spec : RegisterSpec} {r : Register}

theorem name_of_lookup {info : TypeInfo} (h : (types.lookup typeName).run = .ok (.ok info)) :
    types.Registers typeName ∧ info.name = typeName := by
  unfold TypeRegistry.lookup at h
  cases hget : types.get? typeName with
  | none =>
    rw [hget] at h
    cases h
  | some found =>
    rw [hget] at h
    cases h
    exact ⟨⟨_, hget⟩, by simpa using List.find?_some hget⟩

/-- A register is made only if its type is registered. -/
theorem type_buildRegister (h : (types.buildRegister key spec).run = .ok (.ok r)) :
    types.Registers spec.typeName ∧ r.typeName = spec.typeName := by
  obtain ⟨info, hinfo, -, htype⟩ := buildRegister_cases h
  obtain ⟨hknown, hname⟩ := name_of_lookup hinfo
  exact ⟨hknown, htype.trans hname⟩

theorem type_buildWatch (h : (types.buildWatch key typeName).run = .ok (.ok r)) : types.Registers r.typeName := by
  obtain ⟨info, hinfo, h⟩ := Typed.bind_eq_ok.1 h
  obtain ⟨zero, -, h⟩ := Typed.bind_eq_ok.1 h
  obtain ⟨hknown, hname⟩ := name_of_lookup hinfo
  cases h
  exact hname ▸ hknown

theorem Makes.registers {t : Tree} {sharing : Sharing} {space : MemorySpace} {build : Typed Register}
    (h : Makes types t sharing space key build) (hr : build.run = .ok (.ok r)) : types.Registers r.typeName := by
  have hbuild {spec : RegisterSpec} (h : (types.buildRegister key spec).run = .ok (.ok r)) :
      types.Registers r.typeName := (type_buildRegister h).2 ▸ (type_buildRegister h).1
  cases h with
  | watch typeName => exact type_buildWatch hr
  | _ => exact hbuild hr

/-- A register in the shape of a pin has the pin's type. -/
theorem typeName_pinSpec {g : Graph} {frames : List ArgumentFrame} {p : Proxy} (hp : p.pin?.isSome = true)
    (h : pinSpec g frames p = .ok spec) : p.typeName? g = some spec.typeName := by
  obtain ⟨id, hid⟩ := Option.isSome_iff_exists.1 hp
  unfold pinSpec at h
  rw [hid] at h
  obtain ⟨pin, hpin, h⟩ := Checked.bind_eq_ok.1 h
  obtain ⟨node, -, h⟩ := Checked.bind_eq_ok.1 h
  cases h
  rw [Proxy.typeName?, hid, Option.bind_some, Graph.pin_eq_ok.1 hpin]
  rfl

end Lowering

/-! ## Types of values -/

namespace Tree

variable {t : Tree} {env : Environment} {options : CompileOptions} {sharing : Sharing} {s : State} {e : ExprId}
  {p root : Proxy} {segments : String} {o : Operand}

/-- The type with which the value of a root pin is stored. -/
inductive StoredAs (t : Tree) (env : Environment) (sharing : Sharing) (p : Proxy) : String → Prop
  | value {typeName : String} (hnone : t.NoVariables sharing p)
    (htype : (sharing.representative p).typeName? t.graph = some typeName) : StoredAs t env sharing p typeName
  | parameter {first q : Proxy} {name typeName : String} {isInput isInput' : Bool}
    (hfirst : t.FirstVariable sharing p first) (hkind : first.IsOn t.graph (.parameter name isInput))
    (hq : q.IsOn t.graph (.parameter name isInput')) (htype : q.typeName? t.graph = some typeName) :
    StoredAs t env sharing p typeName
  | localVariable {first : Proxy} {callSite : CallStack} {function : FunctionDefinition} {v : LocalVariable}
    {key : String} (hfirst : t.FirstVariable sharing p first) (hdenotes : t.Denotes env first (.register key))
    (hv : t.DeclaresAt callSite function v) (hkey : localKey t.graph callSite v.name = .ok key) :
    StoredAs t env sharing p v.typeName

/-- A root pin whose value is that of an external variable. -/
def StoredOutside (t : Tree) (env : Environment) (sharing : Sharing) (p : Proxy) : Prop :=
  ∃ first index, t.FirstVariable sharing p first ∧ t.Denotes env first (.external index)

theorem representative_isRoot (hparts : sharing.Partitions t.Shares) (hp : p.IsRoot t.graph) :
    (sharing.representative p).IsRoot t.graph :=
  (isRoot_of_eqvGen ((hparts.mem_group _ _).1 (hparts.representative_least p).1)).1 hp

section Names

variable (hs : t.loweredWith env options sharing = .ok s) (hparts : sharing.Partitions t.Shares)
  (hsharing : sharing.ExistsIn t.graph) (hg : t.graph.PlainNames)

include hs hparts hsharing hg

/-- The register of a site of a root pin has the type with which its value is stored. -/
theorem exists_storedAs {key : String} (hp : p.IsRoot t.graph)
    (hsite : Context.rootSite ⟨t, env, options, sharing, .emit⟩ p = .ok (some (.register key)))
    (ho : s.storage.keyed.lookup key = some o) : ∃ typeName table r, t.StoredAs env sharing p typeName ∧
      env.types.Registers typeName ∧ s.storage.table? o.memory = some table ∧ table.registers[o.index]? = some r ∧
      r.typeName = typeName := by
  obtain ⟨table, r, build, htable, hr, hmakes, hbuild⟩ := makes_of_named hs (named_of_lowered hs ho)
  rcases Context.rootSite_cases hsite with ⟨first, hfound, hsite⟩ | ⟨hfound, path, hpath, hsite⟩
  · have hfirst := firstVariable_of_findM? hparts hfound
    have hdenotes : t.Denotes env first (.register key) := denotes_of_variableSite hsite
    cases hdenotes with
    | parameter hkind =>
      obtain ⟨-, q, isInput, frames, spec, hq, hspec, rfl⟩ := hmakes.of_parameterKey hg.bare hsharing
      obtain ⟨hknown, htype⟩ := type_buildRegister hbuild
      have hpin : q.pin?.isSome = true := by
        obtain ⟨id, -, -, hid, -⟩ := hq
        simp [hid]
      exact ⟨_, table, r, .parameter hfirst hkind hq (typeName_pinSpec hpin hspec), hknown, htable, hr, htype⟩
    | localVariable hkind hdepth hdeclares hinner hkey =>
      obtain ⟨-, function, v, hv, rfl, rfl⟩ := hmakes.of_localKey hg hsharing hkey
      obtain ⟨hknown, htype⟩ := type_buildRegister hbuild
      have hdenotes : t.Denotes env first (.register key) := .localVariable hkind hdepth hdeclares hinner hkey
      exact ⟨_, table, r, .localVariable hfirst hdenotes hv hkey, hknown, htable, hr, htype⟩
  · cases hsite
    have hleast := representative_isRoot hparts hp
    obtain ⟨p', hp', -, hpath', frames, spec, hspec, rfl⟩ :=
      hmakes.of_colon_notMem (Proxy.colon_notMem_path hg.bare hleast.isSome hpath)
    have hsame := Proxy.path_injective hg (representative_isRoot hparts hp') hleast hpath' hpath
    rw [hsame] at hspec
    obtain ⟨hknown, htype⟩ := type_buildRegister hbuild
    exact ⟨_, table, r, .value (Checked.false_of_findM? hfound) (typeName_pinSpec hleast.isSome hspec), hknown, htable,
      hr, htype⟩

/-- The type of a variable expression is checked where its value is stored. -/
theorem VarAt.storedAs (h : t.VarAt e root segments) (ho : (e, o) ∈ s.operands) :
    t.StoredOutside env sharing root ∨ ∃ typeName r, t.StoredAs env sharing root typeName ∧
      env.types.Registers typeName ∧ (s.program env.externals).register? o = some r ∧ r.typeName = typeName := by
  obtain ⟨site, base, hsite, hbase, hbelow⟩ := h.locatedAt hs ho
  cases site with
  | external index =>
    rcases Context.rootSite_cases hsite with ⟨first, hfound, hsite⟩ | ⟨-, path, -, hsite⟩
    · exact .inl ⟨first, index, firstVariable_of_findM? hparts hfound, denotes_of_variableSite hsite⟩
    · cases hsite
  | register key =>
    obtain ⟨typeName, table, r, hstored, hknown, htable, hr, htype⟩ :=
      exists_storedAs hs hparts hsharing hg h.isRoot hsite hbase
    refine .inr ⟨typeName, r, hstored, hknown, ?_, htype⟩
    obtain ⟨hmemory, hindex⟩ := Storage.Below.cell_eq hbelow
    have hmemory? : (s.program env.externals).memory? o.memory = some table := by
      rw [hmemory, ← htable]
      cases base.memory <;> rfl
    rw [Program.register?, hmemory?, hindex]
    exact hr

omit hparts in
/-- The type of a constant is that of its pin. -/
theorem registers_of_literal {x : Expression} (hwf : t.graph.WellFormed) (hx : t.expr? e = some x)
    (hkind : x.kind = .literal) (hp : x.proxy = some p) (ho : (e, o) ∈ s.operands) :
    ∃ typeName, p.typeName? t.graph = some typeName ∧ env.types.Registers typeName := by
  obtain ⟨p', hp', hkept⟩ := placed_of_lowered hs (e, o) ho x hx (by rw [hkind]; rfl)
  cases hp.symm.trans hp'
  rw [hkind] at hkept
  obtain ⟨site, hsite, hholds⟩ := hkept
  obtain ⟨path, suffix, hpin, hpath, hsuffix, rfl⟩ := Context.constantSite_cases hsite
  obtain ⟨table, r, build, -, -, hmakes, hbuild⟩ := makes_of_named hs (named_of_lowered hs hholds)
  have hsuffix : suffix ∈ suffixes .literal := by simpa [suffixes] using hsuffix
  obtain ⟨q, frames, spec, hq, hpath', hspec, rfl⟩ := hmakes.of_constantKey hg.bare hsharing hpin hpath hsuffix
  obtain rfl := Proxy.eq_of_path_eq hg hwf hq hpin hpath' hpath
  exact ⟨_, typeName_pinSpec hq hspec, (type_buildRegister hbuild).1⟩

end Names

/-- An expression of some kind for the value of a pin. -/
def ValueAt (t : Tree) (kind : ExprKind) (e : ExprId) (p : Proxy) : Prop :=
  ∃ x, t.expr? e = some x ∧ x.kind = kind ∧ x.proxy = some p ∧ (p.pin?.bind t.graph.pin?).any Pin.isExecute = false

theorem ValueAt.varAt (h : t.ValueAt .var e p) (hp : p.IsRoot t.graph) : t.VarAt e p "" := by
  obtain ⟨x, hx, hkind, hproxy, -⟩ := h
  exact IsVar.varAt ⟨x, hx, hkind, hproxy⟩ hp

/-- Without failures, the values that the setup pass meets have operands. -/
theorem ValueAt.exists_operand {checked prepared : State} {kind : ExprKind} (h : t.ValueAt kind e p)
    (hpasses : t.Passes env options sharing checked prepared s) (he : e ∈ prepared.visited) (hfailed : s.failed = [])
    (hvalue : kind.isValue = true) : ∃ o, s.operands.lookup e = some o := by
  obtain ⟨x, hx, rfl, hp, hexecute⟩ := h
  refine hpasses.knows_value he (by simp [hfailed]) hx hvalue ?_
  rw [Expression.pin?, hp]
  exact hexecute

/-- A validated variable expression stands at a path below a root pin. -/
theorem ValueAt.exists_varAt (h : t.ValueAt .var e p) (hissues : t.issues env = .ok []) :
    ∃ id root segments, p.pin? = some id ∧ t.graph.rootPin id = .ok root ∧ t.VarAt e (p.withPin root) segments := by
  obtain ⟨x, hx, hkind, hp, -⟩ := h
  have ht := valid_of_issues hissues
  have hpin := (complete_of_issues hissues hx).pin (by rw [hkind]; rfl)
  rw [Expression.pin?, hp] at hpin
  obtain ⟨id, hid⟩ := Option.isSome_iff_exists.1 hpin
  obtain ⟨pin, hpin⟩ := Proxy.exists_pin (ht.proxy hx hp) hid
  obtain ⟨root, hroot, -⟩ := ht.graph.exists_rootPin hpin
  obtain ⟨segments, hsegments⟩ := ht.graph.exists_propertySegments hpin
  exact ⟨id, root, segments, hid, hroot, x, p, id, root, hx, hkind, hp, hid, hroot, rfl, hsegments⟩

theorem NoVariables.not_first {first : Proxy} (h : t.NoVariables sharing p) : ¬ t.FirstVariable sharing p first :=
  fun hfirst => by
    cases (h first hfirst.mem).symm.trans (Proxy.isVariablePin_eq_true_iff.2 hfirst.isVariable)

/-- The least pin of a group without variables is stored with its own type. -/
theorem StoredAs.typeName_eq {typeName : String} (h : t.StoredAs env sharing p typeName)
    (hnone : t.NoVariables sharing p) (hleast : sharing.representative p = p) :
    p.typeName? t.graph = some typeName := by
  cases h with
  | value _ htype => rwa [hleast] at htype
  | parameter hfirst => exact absurd hfirst hnone.not_first
  | localVariable hfirst => exact absurd hfirst hnone.not_first

variable {q : Program} {report : Report}

/-- Every register of a compiled program has a registered type. Suppose that names contain no separators and that
those of nodes and of pins in one place are different. Then the pins of constants have registered types, and the
value of every variable expression is an external variable, or in a register of the type with which it is stored.
So a root pin has a registered type if it is the least of its group and there is no variable in it. -/
theorem stored_types_registered (h : t.compile env options = .ok ⟨.ok q, report⟩) :
    (∀ space table, q.memory? space = some table → ∀ r ∈ table.registers, env.types.Registers r.typeName) ∧
    ∃ s sharing checked prepared, t.lowered env options = .ok s ∧ q = s.program env.externals ∧
      Sharing.ofTree t = .ok sharing ∧ t.Passes env options sharing checked prepared s ∧
      (t.graph.PlainNames →
        (∀ {e p}, e ∈ prepared.visited → t.ValueAt .literal e p →
          ∃ typeName, p.typeName? t.graph = some typeName ∧ env.types.Registers typeName) ∧
        (∀ {e p}, e ∈ prepared.visited → t.ValueAt .var e p →
          ∃ o id root, s.operands.lookup e = some o ∧ p.pin? = some id ∧ t.graph.rootPin id = .ok root ∧
            (t.StoredOutside env sharing (p.withPin root) ∨
              ∃ typeName r, t.StoredAs env sharing (p.withPin root) typeName ∧ env.types.Registers typeName ∧
                q.register? o = some r ∧ r.typeName = typeName)) ∧
        ∀ {e p}, e ∈ prepared.visited → t.ValueAt .var e p → p.IsRoot t.graph → t.NoVariables sharing p →
          sharing.representative p = p →
          ∃ typeName, p.typeName? t.graph = some typeName ∧ env.types.Registers typeName) := by
  obtain ⟨sharing, checked, prepared, s, hissues, hs, rfl, hsharing, hexists, hparts, hwith, hpasses, hfailed⟩ :=
    exists_built h
  refine ⟨fun space table htable r hr => ?_, s, sharing, checked, prepared, hs, rfl, hsharing, hpasses, ?_⟩
  · have htable : s.storage.table? space = some table := by
      rw [← htable]
      cases space <;> rfl
    obtain ⟨build, hmakes, hbuild⟩ := made_of_lowered hwith htable hr
    exact hmakes.registers hbuild
  intro hg
  have hstored {e : ExprId} {root : Proxy} {segments : String} {o : Operand} (hat : t.VarAt e root segments)
      (ho : s.operands.lookup e = some o) := hat.storedAs hwith hparts hexists hg (mem_of_lookup ho)
  refine ⟨fun he hvalue => ?_, fun he hvalue => ?_, fun he hvalue hroot hnone hleast => ?_⟩
  · obtain ⟨o, ho⟩ := hvalue.exists_operand hpasses he hfailed rfl
    obtain ⟨x, hx, hkind, hp, -⟩ := hvalue
    exact registers_of_literal hwith hexists hg (valid_of_issues hissues).graph hx hkind hp (mem_of_lookup ho)
  · obtain ⟨o, ho⟩ := hvalue.exists_operand hpasses he hfailed rfl
    obtain ⟨id, root, segments, hid, hroot, hat⟩ := hvalue.exists_varAt hissues
    exact ⟨o, id, root, ho, hid, hroot, hstored hat ho⟩
  · obtain ⟨o, ho⟩ := hvalue.exists_operand hpasses he hfailed rfl
    rcases hstored (hvalue.varAt hroot) ho with ⟨first, -, hfirst, -⟩ | ⟨typeName, -, hstored, hknown, -⟩
    · exact absurd hfirst hnone.not_first
    · exact ⟨typeName, hstored.typeName_eq hnone hleast, hknown⟩

end Tree

/-! ## A link to a pin of an unknown type -/

/-- A call makes a number, and another takes it by a pin whose type is not registered. -/
def fuzzyTree : Tree where
  graph := {
    nodes := [⟨"Go", .event "Go", [], none⟩, ⟨"Make", .unit "make", [0], none⟩,
      ⟨"Use", .unit "use", [1], none⟩]
    pins := [
      { node := 1, name := "Value", direction := .output, typeName := "int32" },
      { node := 2, name := "Value", direction := .input, typeName := "mystery" }] }
  exprs := [
    { kind := .entry, name := "Go", children := [1, 3], proxy := some ⟨[], .node 0⟩ },
    { kind := .call, name := "Make", children := [2], proxy := some ⟨[], .node 1⟩ },
    { kind := .var, name := "Value", proxy := some ⟨[], .pin 0⟩ },
    { kind := .call, name := "Use", children := [4], proxy := some ⟨[], .node 2⟩ },
    { kind := .var, name := "Value", proxy := some ⟨[], .pin 1⟩ }]
  roots := [0]
  links := [⟨⟨[], .pin 0⟩, ⟨[], .pin 1⟩⟩]

def fuzzyEnv : Environment where
  catalog := ⟨[⟨"make", [⟨"Value", .output⟩]⟩, ⟨"use", [⟨"Value", .input⟩]⟩]⟩

def fuzzySharing : Sharing := ⟨[[⟨[], .pin 0⟩, ⟨[], .pin 1⟩]]⟩

theorem ofTree_fuzzyTree : Sharing.ofTree fuzzyTree = .ok fuzzySharing := by cbv

theorem lowered_fuzzyTree : ∃ s, fuzzyTree.lowered fuzzyEnv {} = .ok s ∧ s.report.errors = 0 ∧
    s.operands = [(4, ⟨.work, 0, none⟩), (2, ⟨.work, 0, none⟩)] := by
  rw [Tree.lowered_eq ofTree_fuzzyTree]
  exact Checked.exists_ok_of_any (by decide +kernel)

theorem visited_fuzzyTree : ∃ r, Context.lowerRoots ⟨fuzzyTree, fuzzyEnv, {}, fuzzySharing, .setup⟩ {} = .ok r ∧
    r.2.visited = [4, 3, 2, 1, 0] :=
  Checked.exists_ok_of_any (by decide +kernel)

theorem plainNames_fuzzyTree : fuzzyTree.graph.PlainNames :=
  .of_pairwise (by decide) (by decide) (by decide) (by decide)

/-- The pin that is read has the type of the one that is written, and only the latter is looked up. -/
theorem Tree.stored_types_registered_fuzzyTree : ∃ q report,
    fuzzyTree.compile fuzzyEnv {} = .ok ⟨.ok q, report⟩ ∧ fuzzyTree.graph.PlainNames ∧
      fuzzyTree.ValueAt .var 2 ⟨[], .pin 0⟩ ∧
      (∀ r ∈ q.work.registers, fuzzyEnv.types.Registers r.typeName) ∧
      ∃ typeName, Proxy.typeName? fuzzyTree.graph ⟨[], .pin 0⟩ = some typeName ∧ fuzzyEnv.types.Registers typeName := by
  obtain ⟨s, hs, herrors, -⟩ := lowered_fuzzyTree
  obtain ⟨report, hcompile⟩ := exists_compile_of_lowered (show fuzzyTree.issues fuzzyEnv = .ok [] from rfl) hs herrors
  obtain ⟨htables, s', sharing, checked, prepared, -, -, hsharing, hpasses, hchecked⟩ :=
    stored_types_registered hcompile
  cases ofTree_fuzzyTree.symm.trans hsharing
  obtain ⟨-, -, hleast⟩ := hchecked plainNames_fuzzyTree
  have hvisited : 2 ∈ prepared.visited := by
    obtain ⟨r, hr, hvisited⟩ := visited_fuzzyTree
    cases hpasses.checks
    cases hr.symm.trans hpasses.prepares
    rw [show prepared.visited = [4, 3, 2, 1, 0] from hvisited]
    decide
  have hvalue : fuzzyTree.ValueAt .var 2 ⟨[], .pin 0⟩ := ⟨_, rfl, rfl, rfl, rfl⟩
  have hnone : fuzzyTree.NoVariables fuzzySharing ⟨[], .pin 0⟩ := by
    intro p hp
    have hp : p = ⟨[], .pin 0⟩ ∨ p = ⟨[], .pin 1⟩ := by simpa [Sharing.group, fuzzySharing] using hp
    rcases hp with rfl | rfl <;> rfl
  exact ⟨_, report, hcompile, plainNames_fuzzyTree, hvalue, htables .work _ rfl,
    hleast hvisited hvalue ⟨0, _, rfl, rfl, rfl⟩ hnone rfl⟩

/-- The pin of an unknown type is lowered, and the tree compiles. -/
theorem fuzzyTree_compiles : ∃ q report s, fuzzyTree.compile fuzzyEnv {} = .ok ⟨.ok q, report⟩ ∧
    fuzzyTree.lowered fuzzyEnv {} = .ok s ∧ q = s.program [] ∧ fuzzyTree.ValueAt .var 4 ⟨[], .pin 1⟩ ∧
      s.operands.lookup 4 = some ⟨.work, 0, none⟩ ∧
      Proxy.typeName? fuzzyTree.graph ⟨[], .pin 1⟩ = some "mystery" ∧ ¬ fuzzyEnv.types.Registers "mystery" := by
  obtain ⟨s, hs, herrors, hoperands⟩ := lowered_fuzzyTree
  obtain ⟨report, hcompile⟩ :=
    Tree.exists_compile_of_lowered (show fuzzyTree.issues fuzzyEnv = .ok [] from rfl) hs herrors
  have hunknown : ¬ fuzzyEnv.types.Registers "mystery" := by
    rintro ⟨info, hinfo⟩
    have hnone : fuzzyEnv.types.get? "mystery" = none := by decide
    cases hnone.symm.trans hinfo
  exact ⟨_, report, s, hcompile, hs, rfl, ⟨_, rfl, rfl, rfl, rfl⟩, by rw [hoperands]; rfl, rfl, hunknown⟩

end NodeGraph
