import NodeGraph.Lowering.Operands
import NodeGraph.Proofs.Graph.WellFormed
import NodeGraph.Proofs.Lowering.Storage
import NodeGraph.Proofs.Outcome

/-!
# Where values are kept

The tree and the sharing alone say where the value of a pin is kept: `rootSite` names the key of a
register or an external variable, and a sub-pin addresses a member of its root pin's site. Storage only
grows, and a key keeps its operand, so a place found once is the place found ever after (`Located.mono`),
and there is only one (`Located.unique`).

The functions that find operands look at nothing but the storage and the argument frames, and change
nothing but the storage. `Finds` says so, together with what is known of the result.
-/
/-! ## Root pins and members -/

namespace NodeGraph

variable {r : Register} {spec : RegisterSpec}

namespace PinChain

theorem segments_ne_empty (above pin : Pin) (rest : List Pin) : segments above (pin :: rest) ≠ "" := by
  rw [segments, segment]
  split <;> simp

end PinChain

namespace Graph

variable {g : Graph} {id : PinId} {pin : Pin}

theorem rootPin_of_isRoot (hpin : g.pin id = .ok pin) (h : pin.isRoot = true) :
    g.rootPin id = .ok id ∧ g.propertySegments id = .ok "" := by
  have hchain : g.chain id = .ok ⟨id, pin, []⟩ := by
    rw [chain, chainWithin, hpin, Checked.ok_bind, Option.isNone_iff_eq_none.1 h]
    rfl
  exact ⟨by rw [rootPin, hchain]; rfl, by rw [propertySegments, hchain]; rfl⟩

theorem propertySegments_ne_empty (hpin : g.pin id = .ok pin) (h : pin.isRoot = false) {segments : String}
    (hs : g.propertySegments id = .ok segments) : segments ≠ "" := by
  obtain ⟨c, hc, hs⟩ := Checked.bind_eq_ok.1 hs
  cases hs
  rw [chain, chainWithin, hpin, Checked.ok_bind] at hc
  split at hc
  · next hnone => simp [Pin.isRoot, hnone] at h
  · obtain ⟨c', -, hc⟩ := Checked.bind_eq_ok.1 hc
    cases hc
    cases hbelow : c'.below with
    | nil => simpa [hbelow] using PinChain.segments_ne_empty c'.rootPin pin []
    | cons q qs => simpa [hbelow] using PinChain.segments_ne_empty c'.rootPin q (qs ++ [pin])

end Graph

/-! ## Pins of nodes -/

namespace Proxy

variable {g : Graph} {p : Proxy}

/-- A pin of a node of that kind. -/
def IsOn (g : Graph) (p : Proxy) (kind : NodeKind) : Prop :=
  ∃ id pin node, p.pin? = some id ∧ g.pin? id = some pin ∧ g.node? pin.node = some node ∧ node.kind = kind

theorem isOn_of_ok {id : PinId} {pin : Pin} {node : Node} (hid : p.pin? = some id) (hpin : g.pin id = .ok pin)
    (hnode : g.node pin.node = .ok node) : p.IsOn g node.kind :=
  ⟨id, pin, node, hid, Graph.pin_eq_ok.1 hpin, Graph.node_eq_ok.1 hnode, rfl⟩

/-- The type of a pin. -/
def typeName? (g : Graph) (p : Proxy) : Option String := (p.pin?.bind g.pin?).map (·.typeName)

end Proxy

namespace Lowering

variable {types : TypeRegistry} {key : String}

theorem exists_node_of_isVariablePin {g : Graph} {p : Proxy} (h : isVariablePin g p = .ok true) :
    ∃ id pin node, p.pin? = some id ∧ g.pin? id = some pin ∧ g.node? pin.node = some node ∧
      node.kind.isStorage = true := by
  unfold isVariablePin at h
  split at h
  · cases h
  · next id hid =>
    obtain ⟨pin, hpin, h⟩ := Checked.bind_eq_ok.1 h
    split at h
    · cases h
    · obtain ⟨node, hnode, h⟩ := Checked.bind_eq_ok.1 h
      exact ⟨id, pin, node, hid, Graph.pin_eq_ok.1 hpin, Graph.node_eq_ok.1 hnode, Except.ok.inj h⟩

/-! ## Storage that keeps its keys -/

/-- Everything in `a` is in `b`: the registers and property paths under their numbers, and the operands
under their keys. New keys are the names of their registers. -/
structure Storage.Extends (a b : Storage) : Prop where
  tables : a.Le b
  keyed : ∀ {key o}, a.keyed.lookup key = some o → b.keyed.lookup key = some o
  named : ∀ {key o}, b.keyed.lookup key = some o → a.keyed.lookup key = some o ∨ b.Named key o

namespace Storage

variable {a b c s s' : Storage} {key' segments : String} {o o' base : Operand} {space : MemorySpace}
  {table : MemoryTable}

theorem Extends.refl (a : Storage) : a.Extends a := ⟨.refl a, fun h => h, fun h => .inl h⟩

theorem Extends.trans (h : a.Extends b) (h' : b.Extends c) : a.Extends c where
  tables := h.tables.trans h'.tables
  keyed hk := h'.keyed (h.keyed hk)
  named hk := by
    rcases h'.named hk with hk | hnew
    · exact (h.named hk).imp_right (.mono · h'.tables)
    · exact .inr hnew

/-- A register under a new key takes no key away. -/
theorem extends_addRegister (hnew : s.keyed.lookup r.name = none) (h : s.addRegister space r = some (s', o)) :
    s.Extends s' ∧ s'.keyed.lookup r.name = some o := by
  obtain ⟨hle, -, hkeyed⟩ : s.Le s' ∧ s'.Holds 0 o ∧ s'.keyed = (r.name, o) :: s.keyed :=
    addRegister_spec h
  rw [hkeyed]
  refine ⟨⟨hle, fun {key o'} hk => ?_, fun {key o'} hk => ?_⟩, by simp⟩
  · have hne : key ≠ r.name := by
      rintro rfl
      rw [hnew] at hk
      cases hk
    rw [hkeyed, List.lookup_cons]
    simp [beq_eq_false_iff_ne.2 hne, hk]
  · rw [hkeyed, List.lookup_cons] at hk
    split at hk
    · next heq =>
      cases hk
      rw [eq_of_beq heq]
      exact .inr (named_addRegister h)
    · exact .inl hk

/-- The new register is the last of its table, and the other tables are the same. -/
theorem table?_addRegister (h : s.addRegister space r = some (s', o)) :
    ∃ old, s.table? space = some old ∧ o = ⟨space, old.registers.length, none⟩ ∧
      ∀ space', s'.table? space' = if space' = space then some (old.addRegister r).1 else s.table? space' := by
  obtain ⟨old, hold, rfl, rfl⟩ := addRegister_eq_some.1 h
  exact ⟨old, hold, rfl, table?_setTable (ne_external hold)⟩

/-- A property path adds no register. -/
theorem table?_addPath (h : s.addPath base segments = some (s', o)) (ht : s'.table? space = some table) :
    ∃ old, s.table? space = some old ∧ table.registers = old.registers := by
  obtain ⟨old, hold, rfl, rfl⟩ := addPath_eq_some.1 h
  rw [table?_setTable (ne_external hold)] at ht
  split at ht
  · next heq =>
    cases ht
    exact ⟨old, heq ▸ hold, (old.internPath_spec base.index segments).2.1⟩
  · exact ⟨table, ht, rfl⟩

/-- The registers are those there before, and the new one. -/
theorem mem_addRegister {space' : MemorySpace} {r' : Register} (h : s.addRegister space r = some (s', o))
    (ht : s'.table? space' = some table) (hr : r' ∈ table.registers) :
    (∃ old, s.table? space' = some old ∧ r' ∈ old.registers) ∨ space' = space ∧ r' = r := by
  obtain ⟨old, hold, -, htables⟩ := table?_addRegister h
  rw [htables] at ht
  split at ht
  · next heq =>
    subst heq
    cases ht
    rcases List.mem_append.1 hr with hr | hr
    · exact .inl ⟨old, hold, hr⟩
    · exact .inr ⟨rfl, List.mem_singleton.1 hr⟩
  · exact .inl ⟨table, ht, hr⟩

/-- Every register of `b` is one of `a`, or is found under its name. -/
def Files (a b : Storage) : Prop :=
  ∀ key o, b.Named key o → a.Named key o ∨ b.keyed.lookup key = some o

theorem Files.refl (a : Storage) : a.Files a := fun _ _ h => .inl h

theorem Files.trans (h : a.Files b) (h' : b.Files c) (hle : b.Extends c) : a.Files c := fun key o ho => by
  rcases h' key o ho with ho | hnew
  · exact (h key o ho).imp_right hle.keyed
  · exact .inr hnew

theorem files_addRegister (h : s.addRegister space r = some (s', o)) : s.Files s' := by
  rintro _ ⟨memory, index, path⟩ ⟨hwhole, table, r', ht, hr', rfl⟩
  obtain rfl : path = none := hwhole
  obtain ⟨old, hold, rfl, htables⟩ := table?_addRegister h
  have ht : s'.table? memory = some table := ht
  have hr' : table.registers[index]? = some r' := hr'
  rw [htables] at ht
  split at ht
  · next heq =>
    subst heq
    cases ht
    rcases Nat.lt_or_ge index old.registers.length with hlt | hge
    · rw [MemoryTable.addRegister, List.getElem?_append_left hlt] at hr'
      exact .inl ⟨rfl, old, r', hold, hr', rfl⟩
    · have hlt := (List.getElem?_eq_some_iff.1 hr').1
      obtain rfl : index = old.registers.length := by
        simp [MemoryTable.addRegister] at hlt
        omega
      obtain rfl : r = r' := by simpa [MemoryTable.addRegister] using hr'
      obtain ⟨-, -, hkeyed⟩ : s.Le s' ∧ s'.Holds 0 _ ∧ s'.keyed = _ := addRegister_spec h
      exact .inr (by simp [hkeyed])
  · exact .inl ⟨rfl, table, r', ht, hr', rfl⟩

theorem files_addPath (h : s.addPath base segments = some (s', o)) : s.Files s' := by
  rintro key o' ⟨hwhole, table, r, ht, hr, hname⟩
  obtain ⟨old, hold, hregisters⟩ := table?_addPath h ht
  exact .inl ⟨hwhole, old, r, hold, hregisters ▸ hr, hname⟩

/-- The operand of a member of the register of `base`. -/
def Member (s : Storage) (base : Operand) (segments : String) (o : Operand) : Prop :=
  ∃ table k, s.table? base.memory = some table ∧
    table.propertyPaths.findIdx? (· = ⟨base.index, segments⟩) = some k ∧
    o = { base with propertyPath := some k }

theorem Member.mono (h : a.Member base segments o) (hle : a.Extends b) : b.Member base segments o := by
  obtain ⟨table, k, ht, hk, rfl⟩ := h
  obtain ⟨table', ht', hpaths⟩ := hle.tables _ table ht
  obtain ⟨rest, hrest⟩ := hpaths.propertyPaths
  refine ⟨table', k, ht', ?_, rfl⟩
  rw [← hrest, List.findIdx?_append, hk]
  rfl

theorem Member.unique (h : a.Member base segments o) (h' : a.Member base segments o') : o = o' := by
  obtain ⟨table, k, ht, hk, rfl⟩ := h
  obtain ⟨table', k', ht', hk', rfl⟩ := h'
  rw [ht] at ht'
  cases ht'
  rw [hk] at hk'
  cases hk'
  rfl

/-- The operand given for a member is that of the member. -/
theorem member_addPath (h : s.addPath base segments = some (s', o)) : s.Extends s' ∧ s'.Member base segments o := by
  obtain ⟨t, ht, rfl, rfl⟩ := addPath_eq_some.1 h
  refine ⟨⟨le_setTable ht (t.internPath_spec base.index segments).1, fun hk => ?_, fun hk => ?_⟩, ?_⟩
  · rw [keyed_setTable]
    exact hk
  · rw [keyed_setTable] at hk
    exact .inl hk
  · refine ⟨(t.internPath base.index segments).1, _, by rw [table?_setTable (ne_external ht), if_pos rfl], ?_, rfl⟩
    unfold MemoryTable.internPath
    dsimp only
    split
    · next k hk => exact hk
    · next hk => simp [List.findIdx?_append, hk]

end Storage

/-! ## Keys -/

theorem buildRegister_cases (h : (types.buildRegister key spec).run = .ok (.ok r)) :
    ∃ info, (types.lookup spec.typeName).run = .ok (.ok info) ∧ r.name = key ∧ r.typeName = info.name := by
  obtain ⟨info, hinfo, h⟩ := Typed.bind_eq_ok.1 h
  refine ⟨info, hinfo, ?_⟩
  dsimp only at h
  split at h
  · obtain ⟨values, -, h⟩ := Typed.bind_eq_ok.1 h
    split at h
    · obtain ⟨zero, -, h⟩ := Typed.bind_eq_ok.1 h
      cases h
      exact ⟨rfl, rfl⟩
    · cases h
      exact ⟨rfl, rfl⟩
  · obtain ⟨value, -, h⟩ := Typed.bind_eq_ok.1 h
    cases h
    exact ⟨rfl, rfl⟩

theorem name_buildRegister (h : (types.buildRegister key spec).run = .ok (.ok r)) : r.name = key := by
  obtain ⟨info, -, hname, -⟩ := buildRegister_cases h
  exact hname

theorem name_buildWatch {typeName : String} (h : (types.buildWatch key typeName).run = .ok (.ok r)) :
    r.name = key := by
  obtain ⟨info, -, h⟩ := Typed.bind_eq_ok.1 h
  obtain ⟨zero, -, h⟩ := Typed.bind_eq_ok.1 h
  cases h
  rfl

end Lowering

namespace Tree

variable {t : Tree} {stack : CallStack} {name : String} {access : LocalAccess}

/-- The function called at a call site declares a local. -/
def DeclaresAt (t : Tree) (callSite : CallStack) (function : FunctionDefinition) (v : LocalVariable) : Prop :=
  t.innermostFunction callSite = .ok (some function) ∧ v ∈ function.locals

theorem declaresAt_of_findLocal (h : t.findLocal stack name = .ok (some access)) :
    t.DeclaresAt access.callSite access.function access.declaration := by
  obtain ⟨callSite, -, h⟩ := Checked.mem_of_findSomeM? h
  obtain ⟨function, hfunction, h⟩ := Checked.bind_eq_ok.1 h
  cases function with
  | none => cases h
  | some function =>
    obtain ⟨v, hv, rfl⟩ := Option.map_eq_some_iff.1 (Except.ok.inj h)
    exact ⟨hfunction, List.mem_of_find?_eq_some hv⟩

end Tree

namespace Lowering

variable {space : MemorySpace} {key : String} {types : TypeRegistry} {t : Tree} {sharing : Sharing}
  {pin : Option PinId} {build : Typed Register} {a b c : Storage} {α : Type} {s : State}

/-- The keys under which registers are made, with their memory space. -/
inductive Makes (types : TypeRegistry) (t : Tree) (sharing : Sharing) : MemorySpace → String → Typed Register → Prop
  | value {p : Proxy} {path : String} (spec : RegisterSpec) (hp : p.IsRoot t.graph)
    (hnone : (sharing.group p).findM? (m := Checked) (isVariablePin t.graph) = .ok none)
    (hpath : (sharing.representative p).path t.graph = .ok path) {frames : List ArgumentFrame}
    (hspec : pinSpec t.graph frames (sharing.representative p) = .ok spec) :
    Makes types t sharing .work path (types.buildRegister path spec)
  | constant {p : Proxy} {path suffix : String} (spec : RegisterSpec) (hp : p.pin?.isSome = true)
    (hpath : p.path t.graph = .ok path) (hsuffix : suffix = "::IO" ∨ suffix = "::Const")
    {frames : List ArgumentFrame} (hspec : pinSpec t.graph frames p = .ok spec) :
    Makes types t sharing .literal (path ++ suffix) (types.buildRegister (path ++ suffix) spec)
  | watch {p : Proxy} {path : String} (typeName : String) (hp : p.pin?.isSome = true)
    (hpath : (sharing.representative p).path t.graph = .ok path) (htype : p.typeName? t.graph = some typeName) :
    Makes types t sharing .debug (path ++ "::Debug") (types.buildWatch (path ++ "::Debug") typeName)
  | parameter (name : String) (spec : RegisterSpec) {p : Proxy} {isInput : Bool}
    (hkind : p.IsOn t.graph (.parameter name isInput)) {frames : List ArgumentFrame}
    (hspec : pinSpec t.graph frames p = .ok spec) :
    Makes types t sharing .work ("Parameter::" ++ name) (types.buildRegister ("Parameter::" ++ name) spec)
  | localVariable {callSite : CallStack} {function : FunctionDefinition} {v : LocalVariable} {key : String}
    (hv : t.DeclaresAt callSite function v) (hkey : localKey t.graph callSite v.name = .ok key) :
    Makes types t sharing .work key (types.buildRegister key (localSpec v))
  | localDefault {callSite : CallStack} {function : FunctionDefinition} {v : LocalVariable}
    (hv : t.DeclaresAt callSite function v) : Makes types t sharing .literal (localDefaultKey function.name v.name)
      (types.buildRegister (localDefaultKey function.name v.name) (localSpec v))
  | label (n : Nat) :
    Makes types t sharing .literal s!"Const::int32::{n}" (types.buildRegister s!"Const::int32::{n}"
      { typeName := "int32", defaultText := toString n })
  | scratch :
    Makes types t sharing .work "Scratch::Compare" (types.buildRegister "Scratch::Compare" { typeName := "bool" })

/-- A register that was made has its key for a name. -/
theorem Makes.name_eq (h : Makes types t sharing space key build) (hr : build.run = .ok (.ok r)) :
    r.name = key := by
  cases h with
  | watch typeName => exact name_buildWatch hr
  | _ => exact name_buildRegister hr

/-- A register of a memory space was made under its name. -/
def Made (types : TypeRegistry) (t : Tree) (sharing : Sharing) (space : MemorySpace) (r : Register) : Prop :=
  ∃ build, Makes types t sharing space r.name build ∧ build.run = .ok (.ok r)

/-- The registers of `b` that are not in `a` were made. -/
def Storage.Adds (types : TypeRegistry) (t : Tree) (sharing : Sharing) (a b : Storage) : Prop :=
  ∀ ⦃space table r⦄, b.table? space = some table → r ∈ table.registers →
    (∃ old, a.table? space = some old ∧ r ∈ old.registers) ∨ Made types t sharing space r

theorem Storage.Adds.refl (a : Storage) : a.Adds types t sharing a :=
  fun _ table _ ht hr => .inl ⟨table, ht, hr⟩

theorem Storage.Adds.trans (h : a.Adds types t sharing b) (h' : b.Adds types t sharing c) :
    a.Adds types t sharing c := by
  intro space table r ht hr
  rcases h' ht hr with ⟨old, hold, hr⟩ | hmade
  · exact h hold hr
  · exact .inr hmade

/-! ## Sites -/

/-- Where the value of a root pin is kept: in the register of a key, or in an external variable. -/
inductive Site where
  | register (key : String)
  | external (index : Nat)
deriving DecidableEq, Repr

namespace Site

variable {site : Site} {o o' : Operand}

/-- The operand of a site. -/
def Holds (s : Storage) : Site → Operand → Prop
  | register key, o => s.keyed.lookup key = some o
  | external index, o => o = { memory := .external, index }

theorem Holds.mono (h : site.Holds a o) (hle : a.Extends b) : site.Holds b o := by
  cases site with
  | register key => exact hle.keyed h
  | external index => exact h

theorem Holds.unique (h : site.Holds a o) (h' : site.Holds a o') : o = o' := by
  cases site with
  | register key => exact Option.some.inj (h.symm.trans h')
  | external index => exact h.trans h'.symm

end Site

namespace Context

variable (cx : Context)

/-- The site of a pin of a variable or a parameter node, if there is one. -/
def variableSite (p : Proxy) : Checked (Option Site) := do
  let g := cx.tree.graph
  match p.pin? with
  | none => return none
  | some id =>
    match (← g.node (← g.pin id).node).kind with
    | .parameter name _ => return some (.register ("Parameter::" ++ name))
    | .variableAccess name _ =>
      match ← cx.tree.findLocal p.callStack name with
      | some access => return some (.register (← localKey g access.callSite access.declaration.name))
      | none => return (cx.env.externalIndex? name).map .external
    | _ => return none

/-- The site of a root pin: that of the first variable it shares storage with, or else a register
named by the least pin of its group. -/
def rootSite (p : Proxy) : Checked (Option Site) := do
  match ← (cx.sharing.group p).findM? (m := Checked) (isVariablePin cx.tree.graph) with
  | some member => cx.variableSite member
  | none => return some (.register (← (cx.sharing.representative p).path cx.tree.graph))

/-- The site of the default value of a pin. -/
def constantSite (p : Proxy) : Checked (Option Site) := do
  match p.pin? with
  | none => return none
  | some id =>
    let suffix := if (← cx.tree.graph.pin id).direction = .inOut then "::IO" else "::Const"
    return some (.register ((← p.path cx.tree.graph) ++ suffix))

/-- The site of the external variable a root pin refers to. -/
def externalSite (p : Proxy) : Checked (Option Site) := do
  match p.pin? with
  | none => return none
  | some id =>
    let pin ← cx.tree.graph.pin id
    if pin.isRoot then return (cx.env.externalIndex? (← cx.tree.externalName pin)).map .external
    else return none

/-- The operand of a pin whose root pin and member path are given. -/
def LocatedAt (s : Storage) (root : Proxy) (segments : String) (o : Operand) : Prop :=
  ∃ site base, cx.rootSite root = .ok (some site) ∧ site.Holds s base ∧
    if segments = "" then o = base else s.Member base segments o

/-- The operand of the value of a pin. -/
def Located (s : Storage) (p : Proxy) (o : Operand) : Prop :=
  ∃ id root segments, p.pin? = some id ∧ cx.tree.graph.rootPin id = .ok root ∧
    cx.tree.graph.propertySegments id = .ok segments ∧ cx.LocatedAt s (p.withPin root) segments o

variable {cx} {root : Proxy} {segments : String} {p : Proxy} {o o' : Operand}

/-- A root pin is kept with the first variable of its group, or under the path of the least pin. -/
theorem rootSite_cases {site : Site} (h : cx.rootSite p = .ok (some site)) :
    (∃ member, (cx.sharing.group p).findM? (m := Checked) (isVariablePin cx.tree.graph) = .ok (some member) ∧
      cx.variableSite member = .ok (some site)) ∨
    (cx.sharing.group p).findM? (m := Checked) (isVariablePin cx.tree.graph) = .ok none ∧
      ∃ path, (cx.sharing.representative p).path cx.tree.graph = .ok path ∧ site = .register path := by
  obtain ⟨found, hfound, h⟩ := Checked.bind_eq_ok.1 h
  cases found with
  | some member => exact .inl ⟨member, hfound, h⟩
  | none =>
    obtain ⟨path, hpath, h⟩ := Checked.bind_eq_ok.1 h
    cases h
    exact .inr ⟨hfound, path, hpath, rfl⟩

theorem constantSite_cases {site : Site} (h : cx.constantSite p = .ok (some site)) :
    ∃ path suffix, p.pin?.isSome = true ∧ p.path cx.tree.graph = .ok path ∧
      (suffix = "::IO" ∨ suffix = "::Const") ∧ site = .register (path ++ suffix) := by
  unfold constantSite at h
  dsimp only at h
  split at h
  · cases h
  · next id hid =>
    obtain ⟨pin, -, h⟩ := Checked.bind_eq_ok.1 h
    obtain ⟨path, hpath, h⟩ := Checked.bind_eq_ok.1 h
    cases h
    exact ⟨path, _, by simp [hid], hpath, by split <;> simp, rfl⟩

theorem LocatedAt.mono (h : cx.LocatedAt a root segments o) (hle : a.Extends b) :
    cx.LocatedAt b root segments o := by
  obtain ⟨site, base, hsite, hbase, ho⟩ := h
  refine ⟨site, base, hsite, hbase.mono hle, ?_⟩
  split at ho
  · next hseg => rw [if_pos hseg]; exact ho
  · next hseg => rw [if_neg hseg]; exact ho.mono hle

theorem LocatedAt.unique (h : cx.LocatedAt a root segments o) (h' : cx.LocatedAt a root segments o') :
    o = o' := by
  obtain ⟨site, base, hsite, hbase, ho⟩ := h
  obtain ⟨site', base', hsite', hbase', ho'⟩ := h'
  rw [hsite] at hsite'
  cases hsite'
  cases hbase.unique hbase'
  split at ho
  · next hseg => rw [if_pos hseg] at ho'; rw [ho, ho']
  · next hseg => rw [if_neg hseg] at ho'; exact ho.unique ho'

theorem Located.mono (h : cx.Located a p o) (hle : a.Extends b) : cx.Located b p o := by
  obtain ⟨id, root, segments, hid, hroot, hseg, hat⟩ := h
  exact ⟨id, root, segments, hid, hroot, hseg, hat.mono hle⟩

end Context

/-! ## Finding operands -/

section Finds

variable {β : Type} {m : Attempt α} {P : Storage → α → Prop} {k : α → Attempt β} {Q : Storage → β → Prop}
  {f : State → Attempt β}

/-- What finding operands looks at in `s`, over the rest of `r`. -/
def State.over (s r : State) : State := { r with storage := s.storage, frames := s.frames }

/-- `m` looks only at the storage and the argument frames, and changes only the storage. -/
def Framed (m : Attempt α) : Prop :=
  ∀ s r : State, m.run (s.over r) = (m.run s).map fun x => (x.1, { s.over r with storage := x.2.storage })

/-- Storage that keeps what is there and has new registers under their keys. -/
structure Context.Enlarges (cx : Context) (a b : Storage) : Prop where
  keeps : a.Extends b
  files : a.Files b
  adds : a.Adds cx.env.types cx.tree cx.sharing b

variable {cx : Context}

theorem Context.Enlarges.refl (a : Storage) : cx.Enlarges a a := ⟨.refl a, .refl a, .refl a⟩

theorem Context.Enlarges.trans (h : cx.Enlarges a b) (h' : cx.Enlarges b c) : cx.Enlarges a c :=
  ⟨h.keeps.trans h'.keeps, h.files.trans h'.files h'.keeps, h.adds.trans h'.adds⟩

/-- `m` looks only at the storage and the argument frames, lets the storage grow and changes nothing
else, and `P` holds of the storage and a result. -/
structure Context.Finds (cx : Context) (m : Attempt α) (P : Storage → α → Prop) : Prop where
  framed : Framed m
  found : ∀ s, Attempt.Ends (fun _ => True) s m
    (fun a s' => cx.Enlarges s.storage s'.storage ∧ P s'.storage a) fun _ s' => cx.Enlarges s.storage s'.storage

/-- Only the storage changes. -/
theorem Framed.eq_of_run (h : Framed m) {s' : State} {r : Except LowerError α} (hrun : m.run s = .ok (r, s')) :
    s' = { s with storage := s'.storage } := by
  have hself := h s s
  rw [show s.over s = s from rfl, hrun] at hself
  exact (Prod.mk.inj (Except.ok.inj hself)).2

/-- Finding ends with a larger storage, and leaves the rest as it was. -/
theorem Context.Finds.ends (h : cx.Finds m P) (s : State) : Attempt.Ends (fun _ => True) s m
    (fun a s' => (cx.Enlarges s.storage s'.storage ∧ s' = { s with storage := s'.storage }) ∧ P s'.storage a)
    fun _ s' => cx.Enlarges s.storage s'.storage ∧ s' = { s with storage := s'.storage } := by
  have hfound := h.found s
  unfold Attempt.Ends Step.Ends Checked.Ends at hfound ⊢
  cases hrun : m.run s with
  | error f => trivial
  | ok r =>
    obtain ⟨r, s'⟩ := r
    have hs' := h.framed.eq_of_run hrun
    rw [hrun] at hfound
    cases r with
    | ok a => exact ⟨⟨hfound.1, hs'⟩, hfound.2⟩
    | error e => exact ⟨hfound, hs'⟩

theorem Framed.bind (hm : Framed m) (hk : ∀ a, Framed (k a)) : Framed (m >>= k) := by
  intro s r
  have hover := hm s r
  rw [ExceptT.run_bind]
  show (m.run (s.over r) >>= _) = Except.map _ (m.run s >>= _)
  rw [hover]
  cases hrun : m.run s with
  | error f => rfl
  | ok x =>
    obtain ⟨_ | a, s1⟩ := x
    · rfl
    · have hs1 := hm.eq_of_run hrun
      have hframes : s1.frames = s.frames := by rw [hs1]
      have hk1 := hk a s1 r
      unfold State.over at hk1
      rw [hframes] at hk1
      exact hk1

/-- What was looked up depends only on what may be looked at. -/
theorem framed_get_bind (hf : ∀ s r : State, f (s.over r) = f s) (h : ∀ s, Framed (f s)) :
    Framed (get >>= f) := by
  intro s r
  show (f (s.over r)).run (s.over r) = _
  rw [hf s r]
  exact h s s r

theorem framed_modify_storage {storage : Storage} :
    Framed (modify fun s => { s with storage := storage } : Attempt PUnit) := fun _ _ => rfl

theorem Context.Finds.mono {P' : Storage → α → Prop} (h : cx.Finds m P) (hp : ∀ {s a}, P s a → P' s a) :
    cx.Finds m P' :=
  ⟨h.framed, fun s => (h.found s).mono (fun _ _ ⟨hle, ha⟩ => ⟨hle, hp ha⟩) fun _ _ he => he⟩

theorem finds_pure {a : α} (h : ∀ s, P s a) : cx.Finds (pure a) P :=
  ⟨fun _ _ => rfl, fun _ => ⟨.refl _, h _⟩⟩

theorem finds_throw {e : LowerError} : cx.Finds (throw e : Attempt α) P :=
  ⟨fun _ _ => rfl, fun _ => .refl _⟩

theorem finds_lift_bind {x : Checked α} (h : ∀ a, x = .ok a → cx.Finds (k a) Q) :
    cx.Finds (liftM x >>= k) Q := by
  cases x with
  | ok a => exact h a rfl
  | error f => exact ⟨fun _ _ => rfl, fun _ => trivial⟩

theorem finds_get_bind (hf : ∀ s r : State, f (s.over r) = f s) (h : ∀ s, cx.Finds (f s) Q) :
    cx.Finds (get >>= f) Q :=
  ⟨framed_get_bind hf fun s => (h s).framed, fun s => Attempt.ends_get_bind.2 ((h s).found s)⟩

/-- What holds of a result still holds when the storage has grown. -/
theorem Context.Finds.bind {Q : α → Storage → β → Prop} (hm : cx.Finds m P) (hk : ∀ a, cx.Finds (k a) (Q a))
    (hp : ∀ {s s' a}, P s a → s.Extends s' → P s' a) :
    cx.Finds (m >>= k) fun s b => ∃ a, P s a ∧ Q a s b where
  framed := hm.framed.bind fun a => (hk a).framed
  found s := by
    refine Attempt.ends_bind.2 ((hm.found s).mono (fun a s1 ⟨h1, ha⟩ => ?_) fun _ _ he => he)
    refine ((hk a).found s1).mono (fun b s2 ⟨h2, hb⟩ => ?_) fun _ s2 h2 => h1.trans h2
    exact ⟨h1.trans h2, a, hp ha h2.keeps, hb⟩

end Finds

/-! ## Registers -/

theorem framed_typed {result : Typed α} : Framed (typed pin key result) := by
  refine Framed.bind ?_ fun r => ?_
  · cases result.run <;> exact fun _ _ => rfl
  · cases r <;> exact fun _ _ => rfl

theorem ends_typed {result : Typed α} :
    Attempt.Ends (fun _ => True) s (typed pin key result)
      (fun a s' => s' = s ∧ result.run = .ok (.ok a)) fun _ s' => s' = s := by
  unfold typed
  refine Attempt.ends_lift_bind fun r hr => ?_
  cases r with
  | ok a => exact ⟨rfl, hr⟩
  | error cause => exact rfl

/-- A register that is made has the key for a name. -/
theorem finds_allocateWith {cx : Context} (h : Makes cx.env.types cx.tree cx.sharing space key build) :
    cx.Finds (allocateWith key space pin build) fun s o => s.keyed.lookup key = some o where
  framed := by
    refine framed_get_bind (fun _ _ => rfl) fun s => ?_
    split
    · exact fun _ _ => rfl
    · refine framed_typed.bind fun r => framed_get_bind (fun _ _ => rfl) fun s => ?_
      split
      · exact fun _ _ => rfl
      · exact framed_modify_storage.bind fun _ _ _ => rfl
  found s := by
    refine Attempt.ends_get_bind.2 ?_
    split
    · next o ho => exact ⟨.refl _, ho⟩
    · next hnone =>
      refine Attempt.ends_bind.2 (ends_typed.mono ?_ fun _ _ he => by rw [he]; exact .refl _)
      rintro r _ ⟨rfl, hr⟩
      refine Attempt.ends_get_bind.2 ?_
      split
      · exact .refl _
      · next storage o hadd =>
        obtain rfl := h.name_eq hr
        obtain ⟨hkeeps, hkey⟩ := Storage.extends_addRegister hnone hadd
        refine ⟨⟨hkeeps, Storage.files_addRegister hadd, fun space' table r' ht hr' => ?_⟩, hkey⟩
        refine (Storage.mem_addRegister hadd ht hr').imp_right ?_
        rintro ⟨rfl, rfl⟩
        exact ⟨build, h, hr⟩

namespace Context

variable {cx : Context} {p : Proxy}

theorem finds_allocate
    (h : Makes cx.env.types cx.tree cx.sharing space key (cx.env.types.buildRegister key spec)) :
    cx.Finds (cx.allocate key space spec) fun s o => s.keyed.lookup key = some o :=
  finds_allocateWith h

theorem finds_caseLabel (value : Nat) :
    cx.Finds (cx.caseLabel value) fun s o => s.keyed.lookup s!"Const::int32::{value}" = some o :=
  finds_allocate (.label value)

theorem finds_comparisonScratch :
    cx.Finds cx.comparisonScratch fun s o => s.keyed.lookup "Scratch::Compare" = some o :=
  finds_allocate .scratch

/-- Both registers of a local are there. -/
theorem finds_localOperand {callSite : CallStack} {function : FunctionDefinition} {v : LocalVariable}
    (hv : cx.tree.DeclaresAt callSite function v) :
    cx.Finds (cx.localOperand callSite function.name v) fun s o => ∃ key source,
      localKey cx.tree.graph callSite v.name = .ok key ∧ s.keyed.lookup key = some o ∧
      s.keyed.lookup (localDefaultKey function.name v.name) = some source := by
  have hwork : cx.Finds (do cx.allocate (← localKey cx.tree.graph callSite v.name) .work (localSpec v))
      fun s o => ∃ key, localKey cx.tree.graph callSite v.name = .ok key ∧ s.keyed.lookup key = some o :=
    finds_lift_bind fun key hkey => (finds_allocate (.localVariable hv hkey)).mono fun h => ⟨key, hkey, h⟩
  have hdefault : cx.Finds (cx.allocate (localDefaultKey function.name v.name) .literal (localSpec v)) _ :=
    finds_allocate (.localDefault hv)
  refine (hdefault.bind (fun _ => hwork) fun h hle => hle.keyed h).mono ?_
  rintro s o ⟨source, hsource, key, hkey, ho⟩
  exact ⟨key, source, hkey, ho, hsource⟩

theorem finds_allocateFor (h : ∀ {frames spec}, pinSpec cx.tree.graph frames p = .ok spec →
      Makes cx.env.types cx.tree cx.sharing space key (cx.env.types.buildRegister key spec)) :
    cx.Finds (cx.allocateFor key space p) fun s o => s.keyed.lookup key = some o :=
  finds_get_bind (fun _ _ => rfl) fun _ => finds_lift_bind fun _ hspec => finds_allocate (h hspec)

/-! ## Pins -/

theorem finds_variableOperand :
    cx.Finds (cx.variableOperand p) fun s o => ∃ site, cx.variableSite p = .ok (some site) ∧ site.Holds s o := by
  unfold variableOperand variableSite
  dsimp only
  cases hid : p.pin? with
  | none => exact finds_throw
  | some id =>
    refine finds_lift_bind fun pin hpin => finds_lift_bind fun node hnode => ?_
    simp only [hpin, hnode, Checked.ok_bind]
    split
    · next name _ hkind =>
      have hon := Proxy.isOn_of_ok hid hpin hnode
      rw [hkind] at hon
      exact (finds_allocateFor (.parameter name _ hon)).mono fun h =>
        ⟨.register _, by simp [hkind, pure, Except.pure], h⟩
    · next hkind =>
      refine finds_lift_bind fun r hr => ?_
      simp only [hkind, hr, Checked.ok_bind]
      cases r with
      | some access =>
        refine (finds_localOperand (Tree.declaresAt_of_findLocal hr)).mono ?_
        rintro s o ⟨key, -, hkey, ho, -⟩
        exact ⟨.register key, by simp only [hkey]; rfl, ho⟩
      | none =>
        dsimp only
        split
        · next index hindex => exact finds_pure fun _ => ⟨.external index, by rw [hindex]; rfl, rfl⟩
        · exact finds_throw
    · exact finds_throw

theorem finds_rootOperand (hp : p.IsRoot cx.tree.graph) :
    cx.Finds (cx.rootOperand p) fun s o => ∃ site, cx.rootSite p = .ok (some site) ∧ site.Holds s o := by
  unfold rootOperand rootSite
  dsimp only
  refine finds_lift_bind fun r hr => ?_
  rw [hr, Checked.ok_bind]
  cases r with
  | some member => exact finds_variableOperand
  | none =>
    refine finds_lift_bind fun path hpath =>
      (finds_allocateFor (.value _ hp hr hpath)).mono fun h => ⟨.register path, ?_, h⟩
    dsimp only
    rw [hpath]
    rfl

/-- The last part of finding the operand of a sub-pin. -/
def memberOperand (cx : Context) (p : Proxy) (id : PinId) (base : Operand) : Attempt Operand := do
  match (← get).storage.addPath base (← cx.tree.graph.propertySegments id) with
  | none => throw (.externalSubPin (← p.path cx.tree.graph))
  | some (storage, operand) =>
    modify fun s => { s with storage := storage }
    return operand

theorem finds_member {base : Operand} {id : PinId} : cx.Finds (cx.memberOperand p id base)
      fun s o => ∃ segments, cx.tree.graph.propertySegments id = .ok segments ∧ s.Member base segments o where
  framed := by
    refine framed_get_bind (fun _ _ => rfl) fun s => ?_
    cases cx.tree.graph.propertySegments id with
    | error f => exact fun _ _ => rfl
    | ok segments =>
      refine Framed.bind (m := pure segments) (fun _ _ => rfl) fun segments => ?_
      split
      · exact (finds_lift_bind fun _ _ => finds_throw : cx.Finds _ fun _ _ => True).framed
      · exact framed_modify_storage.bind fun _ _ _ => rfl
  found s := by
    refine Attempt.ends_get_bind.2 (Attempt.ends_lift_bind fun segments hseg => ?_)
    split
    · exact ((finds_lift_bind fun _ _ => finds_throw : cx.Finds _ fun _ _ => False).found s).mono
        (fun _ _ h => h.2.elim) fun _ _ h => h
    · next storage o hadd =>
      obtain ⟨hle, hmember⟩ := Storage.member_addPath hadd
      have hadds : s.storage.Adds cx.env.types cx.tree cx.sharing storage := fun _ _ _ ht hr => by
        obtain ⟨old, hold, hregisters⟩ := Storage.table?_addPath hadd ht
        exact .inl ⟨old, hold, hregisters ▸ hr⟩
      exact ⟨⟨hle, Storage.files_addPath hadd, hadds⟩, segments, hseg, hmember⟩

/-- The operand of a value is where the value is kept. -/
theorem finds_valueOperand : cx.Finds (cx.valueOperand p) fun s o => cx.Located s p o := by
  unfold valueOperand
  dsimp only
  cases hid : p.pin? with
  | none => exact finds_throw
  | some id =>
    refine finds_lift_bind fun pin hpin => ?_
    split
    · next hroot =>
      obtain ⟨hrootPin, hsegments⟩ := Graph.rootPin_of_isRoot hpin hroot
      refine (finds_rootOperand ⟨id, pin, hid, Graph.pin_eq_ok.1 hpin, hroot⟩).mono ?_
      rintro s o ⟨site, hsite, ho⟩
      refine ⟨id, id, "", hid, hrootPin, hsegments, site, o, ?_, ho, by simp⟩
      rw [Proxy.withPin_self hid]
      exact hsite
    · next hsub =>
      refine finds_lift_bind fun root hroot => ?_
      refine ((finds_rootOperand (Proxy.isRoot_withPin hroot)).bind (fun base => finds_member) ?_).mono ?_
      · rintro s s' base ⟨site, hsite, hbase⟩ hle
        exact ⟨site, hsite, hbase.mono hle⟩
      · rintro s o ⟨base, ⟨site, hsite, hbase⟩, segments, hseg, ho⟩
        have hne := Graph.propertySegments_ne_empty hpin (by simpa using hsub) hseg
        exact ⟨id, root, segments, hid, hroot, hseg, site, base, hsite, hbase, by rwa [if_neg hne]⟩

theorem finds_constantOperand :
    cx.Finds (cx.constantOperand p) fun s o => ∃ site, cx.constantSite p = .ok (some site) ∧ site.Holds s o := by
  unfold constantOperand constantSite
  dsimp only
  cases hid : p.pin? with
  | none => exact finds_throw
  | some id =>
    refine finds_lift_bind fun pin hpin => finds_lift_bind fun path hpath => ?_
    have hsuffix : (if pin.direction = .inOut then "::IO" else "::Const") = "::IO" ∨
        (if pin.direction = .inOut then "::IO" else "::Const") = "::Const" := by
      split <;> simp
    exact (finds_allocateFor (.constant _ (by simp [hid]) hpath hsuffix)).mono fun h =>
      ⟨.register _, by simp only [hpin, hpath, Checked.ok_bind]; rfl, h⟩

theorem finds_externalOperand :
    cx.Finds (cx.externalOperand p) fun s o => ∃ site, cx.externalSite p = .ok (some site) ∧ site.Holds s o := by
  unfold externalOperand externalSite
  dsimp only
  cases p.pin? with
  | none => exact finds_throw
  | some id =>
    refine finds_lift_bind fun pin hpin => ?_
    simp only [hpin, Checked.ok_bind]
    split
    · refine finds_lift_bind fun name hname => ?_
      simp only [hname, Checked.ok_bind]
      split
      · next index hindex => exact finds_pure fun _ => ⟨.external index, by rw [hindex]; rfl, rfl⟩
      · exact finds_throw
    · exact finds_lift_bind fun _ _ => finds_throw

theorem finds_watchOperand :
    cx.Finds (cx.watchOperand p) fun s o => ∃ path, p.pin?.isSome = true ∧
      (cx.sharing.representative p).path cx.tree.graph = .ok path ∧
      s.keyed.lookup (path ++ "::Debug") = some o := by
  unfold watchOperand
  dsimp only
  split
  · exact finds_throw
  · next id hid =>
    refine finds_lift_bind fun pin hpin => finds_lift_bind fun path hpath => ?_
    have hp : p.pin?.isSome = true := by simp [hid]
    have htype : p.typeName? cx.tree.graph = some pin.typeName := by
      rw [Proxy.typeName?, hid, Option.bind_some, Graph.pin_eq_ok.1 hpin]
      rfl
    exact (finds_allocateWith (.watch pin.typeName hp hpath htype)).mono fun h => ⟨path, hp, hpath, h⟩

end Context
end Lowering
end NodeGraph
