import Mathlib
import NodeGraph.Proofs.Compile.KnownTypes
import NodeGraph.Proofs.Compile.Producers
import NodeGraph.Proofs.Lowering.Arguments

/-!
# Arguments at call sites

The register of a group of linked pins starts with the default of the least pin. For a pin of a function that is the
argument of the call site, if there is one. So the argument is lost if a pin linked to that of the function comes
before it (`scaleTree_loses_argument`), and it can be lost if an expression outside of the call site was the last to
be entered when the register is first asked for. Otherwise it reaches the function (`Tree.arguments_reach_least`).
-/
namespace NodeGraph

open Lowering

/-! ## Defaults -/

/-- The values with which a register of a shape starts. -/
def TypeRegistry.defaults (types : TypeRegistry) (spec : RegisterSpec) : Typed (List String) := do
  if spec.isArray then
    let values ← types.decodeArray spec.typeName spec.defaultText
    match spec.fixedCount with
    | some count => return resized count (← types.zeroValue spec.typeName) values
    | none => return values
  else return [← types.decode spec.typeName spec.defaultText]

/-- The shape of a register for a pin of a node, with that default text. -/
def Pin.shape (pin : Pin) (node : Node) (text : String) : RegisterSpec where
  typeName := pin.typeName
  isArray := pin.isArray
  defaultText := text
  fixedCount := if pin.direction = .hidden && pin.isArray then node.declaredArity else none

/-- The register starts with the values of a text of a pin. -/
def Register.StartsWith (r : Register) (types : TypeRegistry) (g : Graph) (p : Proxy) (text : Pin → String) : Prop :=
  ∃ id pin node, p.pin? = some id ∧ g.pin? id = some pin ∧ g.node? pin.node = some node ∧
    (types.defaults (pin.shape node (text pin))).run = .ok (.ok r.defaultValues)

/-- The text that a pin of a function has inside a call site: that of the argument, or else its own. -/
def Graph.textAt (g : Graph) (callSite : NodeId) (pin : Pin) : String :=
  (g.argument? callSite pin.name).getD pin.defaultValue

namespace Lowering

variable {types : TypeRegistry} {g : Graph} {key : String} {id : PinId} {pin : Pin} {node : Node} {p : Proxy}
  {frames : List ArgumentFrame} {stack : CallStack} {spec : RegisterSpec} {r : Register} {callSite : NodeId}

theorem defaults_buildRegister (h : (types.buildRegister key spec).run = .ok (.ok r)) :
    (types.defaults spec).run = .ok (.ok r.defaultValues) := by
  unfold TypeRegistry.defaults
  obtain ⟨info, -, h⟩ := Typed.bind_eq_ok.1 h
  dsimp only at h
  split at h
  · next harray =>
    rw [if_pos harray]
    obtain ⟨values, hvalues, h⟩ := Typed.bind_eq_ok.1 h
    refine Typed.bind_eq_ok.2 ⟨values, hvalues, ?_⟩
    cases hcount : spec.fixedCount with
    | some count =>
      rw [hcount] at h
      obtain ⟨zero, hzero, h⟩ := Typed.bind_eq_ok.1 h
      cases h
      exact Typed.bind_eq_ok.2 ⟨zero, hzero, rfl⟩
    | none =>
      rw [hcount] at h
      cases h
      rfl
  · next harray =>
    rw [if_neg harray]
    obtain ⟨value, hvalue, h⟩ := Typed.bind_eq_ok.1 h
    cases h
    exact Typed.bind_eq_ok.2 ⟨value, hvalue, rfl⟩

theorem pinSpec_eq (hid : p.pin? = some id) (hpin : g.pin? id = some pin) (hnode : g.node? pin.node = some node)
    (frames : List ArgumentFrame) :
    pinSpec g frames p = .ok { pin.shape node (defaultText frames p.callStack node pin) with pin := some id } := by
  unfold pinSpec
  rw [hid]
  dsimp only
  rw [Graph.pin_eq_ok.2 hpin, Checked.ok_bind, Graph.node_eq_ok.2 hnode]
  rfl

/-- Only the pins of functions have arguments. -/
theorem defaultText_eq_own (h : node.kind ≠ .functionEntry) :
    defaultText frames stack node pin = pin.defaultValue := by
  unfold defaultText
  split
  · next heq => exact absurd heq h
  · rfl

theorem defaultText_of_mem (hkind : node.kind = .functionEntry) (hsite : stack.innermost = some callSite)
    (hframes : Captured g frames) (hmem : callSite ∈ frames.map ArgumentFrame.callSite) :
    defaultText frames stack node pin = g.textAt callSite pin := by
  unfold defaultText Graph.textAt
  rw [hkind, hsite]
  dsimp only
  rw [Option.bind_some, argumentDefault_of_mem hframes hmem]
  cases g.argument? callSite pin.name <;> rfl

theorem defaultText_of_notMem (hkind : node.kind = .functionEntry) (hsite : stack.innermost = some callSite)
    (hmem : callSite ∉ frames.map ArgumentFrame.callSite) :
    defaultText frames stack node pin = pin.defaultValue := by
  unfold defaultText
  rw [hkind, hsite]
  dsimp only
  rw [Option.bind_some, argumentDefault_of_notMem hmem]

/-- A register in the shape of a pin starts with the values of a text, if that is the text of the pin inside the
frames. -/
theorem startsWith_of_pinSpec {text : Pin → String} (hspec : pinSpec g frames p = .ok spec)
    (hr : (types.buildRegister key spec).run = .ok (.ok r)) (hid : p.pin? = some id)
    (hpin : g.pin? id = some pin) (hnode : g.node? pin.node = some node)
    (htext : defaultText frames p.callStack node pin = text pin) : r.StartsWith types g p text := by
  cases (pinSpec_eq hid hpin hnode frames).symm.trans hspec
  rw [htext] at hr
  exact ⟨id, pin, node, hid, hpin, hnode, defaults_buildRegister hr⟩

end Lowering

/-! ## The register of a value -/

namespace Tree

variable {t : Tree} {env : Environment} {options : CompileOptions} {sharing : Sharing} {checked prepared s : State}
  {e : ExprId} {p least : Proxy} {key : String} {callSite : NodeId}

theorem Uses.kind {x : Expression} (h : t.Uses sharing least e) (hx : t.expr? e = some x) :
    x.kind = .var ∨ x.kind.isTransfer = true := by
  obtain ⟨x', target, p, hx', -, -, hkind⟩ := h
  cases hx.symm.trans hx'
  exact hkind.imp And.left And.left

/-- All that asks for the register of a group is inside a call site. -/
structure UsedWithin (t : Tree) (sharing : Sharing) (least : Proxy) (callSite : NodeId) : Prop where
  /-- So is what is below it: the last expression to be entered is there. -/
  below {e d x p} : t.Uses sharing least e → Relation.ReflTransGen t.IsChild e d → t.expr? d = some x →
    x.proxy = some p → callSite ∈ p.callStack
  /-- The group has no execution pins. -/
  value {e x} : t.Uses sharing least e → t.expr? e = some x → x.kind = .var →
    (x.pin?.bind t.graph.pin?).any Pin.isExecute = false

section Supplies

variable (hg : t.graph.PlainNames) (hwf : t.graph.WellFormed) (hsharing : sharing.ExistsIn t.graph)
  (hleast : least.pin?.isSome = true) (hkey : least.path t.graph = .ok key)

include hg hwf hsharing hleast hkey

theorem kept_anywhere : Supply.Kept ⟨least, key, fun _ => True⟩ ⟨t, env, options, sharing, .setup⟩ where
  names := hg
  graph := hwf
  sharing := hsharing
  isSome := hleast
  path := hkey
  within _ _ _ _ _ _ _ := trivial
  settles := .inl fun _ => trivial

theorem UsedWithin.kept (h : t.UsedWithin sharing least callSite) (hacyclic : t.ChildrenAcyclic) :
    Supply.Kept ⟨least, key, fun stack => callSite ∈ stack⟩ ⟨t, env, options, sharing, .setup⟩ where
  names := hg
  graph := hwf
  sharing := hsharing
  isSome := hleast
  path := hkey
  within huses _ _ _ hbelow hx hp := h.below huses hbelow hx hp
  settles := .inr ⟨hacyclic, h.value⟩

end Supplies

/-- Without variables, a root pin is kept under the path of the least pin of its group. -/
theorem VarAt.lookup_eq {cx : Context} {storage : Storage} {o : Operand} (hplaced : cx.Placed storage (e, o))
    (h : cx.tree.VarAt e p "") (hnone : cx.tree.NoVariables cx.sharing p)
    (hkey : (cx.sharing.representative p).path cx.tree.graph = .ok key) : storage.keyed.lookup key = some o := by
  obtain ⟨site, base, hsite, hbase, ho⟩ := VarAt.of_placed hplaced h
  obtain ⟨path, hpath, rfl⟩ := hnone.rootSite_eq hsite
  cases hkey.symm.trans hpath
  rw [if_pos rfl] at ho
  rw [ho]
  exact hbase

/-- The value of a variable expression that the setup pass meets is in the register of its group. -/
theorem ValueAt.exists_register {S : Supply} (h : t.ValueAt .var e p)
    (hkept : S.Kept ⟨t, env, options, sharing, .setup⟩) (hs : t.loweredWith env options sharing = .ok s)
    (hpasses : t.Passes env options sharing checked prepared s) (hfailed : s.failed = []) (he : e ∈ prepared.visited)
    (hp : p.IsRoot t.graph) (hnone : t.NoVariables sharing p) (hleast : sharing.representative p = S.pin) :
    ∃ o r spec, s.operands.lookup e = some o ∧ o.memory = .work ∧
      (s.program env.externals).register? o = some r ∧ S.Shape t.graph spec ∧
      (env.types.buildRegister S.key spec).run = .ok (.ok r) := by
  have hvar := h.varAt hp
  obtain ⟨x, hx, hkind, hproxy, hexecute⟩ := h
  have hkey : (sharing.representative p).path t.graph = .ok S.key := by
    rw [hleast]
    exact hkept.path
  have hexecute : (x.pin?.bind t.graph.pin?).any Pin.isExecute = false := by
    rw [Expression.pin?, hproxy]
    exact hexecute
  have hvalue : x.kind.isValue = true := by rw [hkind]; rfl
  have hnotFailed : e ∉ prepared.failed := fun hmem => by simpa [hfailed] using hpasses.emit.failed hmem
  -- The setup pass has found the register, and it starts without registers.
  obtain ⟨base, hbase⟩ := hpasses.prepared_knows he hnotFailed hx hvalue hexecute
  have hchecked : checked.operands = [] ∧ checked.storage = {} := by
    rw [hpasses.checked_eq]
    exact ⟨rfl, rfl⟩
  have hplaced := (hpasses.setup.operands _ (mem_of_lookup hbase)).resolve_left (by simp [State.restarted, hchecked.1])
  have hfound : prepared.storage.keyed.lookup S.key = some base := VarAt.lookup_eq hplaced hvar hnone hkey
  have hserved : S.Served ⟨t, env, options, sharing, .setup⟩ checked.storage := by
    rw [hchecked.2]
    intro o ho
    cases ho
  obtain ⟨hmemory, r, spec, hr, hshape, hbuild⟩ := hkept.served_of_lowerRoots rfl hserved hpasses.prepares base hfound
  -- The emit pass keeps it.
  obtain ⟨o, ho⟩ := hpasses.knows_value he (by simp [hfailed]) hx hvalue hexecute
  have hlast := VarAt.lookup_eq (placed_of_lowered hs _ (mem_of_lookup ho)) hvar hnone hkey
  cases (hpasses.emit.storage.keyed hfound).symm.trans hlast
  refine ⟨base, r, spec, ho, hmemory, ?_, hshape, hbuild⟩
  rw [Program.register?, hmemory]
  exact hpasses.emit.storage.tables.register hr

variable {q : Program} {report : Report}

/-- Suppose that names contain no separators and that those of nodes and of pins in one place are different. Take a
variable expression for a root pin of a function inside a call site, and no other pin of a function, variable or
parameter linked to it. Its value is in a work register. If another pin is the least of the group, the register
starts with that pin's own default. Otherwise it starts with the argument at the call site, or with the default of
the pin; and with the argument if all that asks for it is inside the call site. -/
theorem arguments_reach_least (h : t.compile env options = .ok ⟨.ok q, report⟩) (hg : t.graph.PlainNames) :
    ∃ s sharing checked prepared, t.lowered env options = .ok s ∧ q = s.program env.externals ∧
      Sharing.ofTree t = .ok sharing ∧ t.Passes env options sharing checked prepared s ∧
      ∀ {e a callSite}, e ∈ prepared.visited → t.ValueAt .var e a → a.IsRoot t.graph →
        a.IsOn t.graph .functionEntry → a.callStack.innermost = some callSite → t.NoVariables sharing a →
        (∀ b ∈ sharing.group a, b.IsOn t.graph .functionEntry → b = a) →
        ∃ o r, s.operands.lookup e = some o ∧ o.memory = .work ∧ q.register? o = some r ∧
          (sharing.representative a ≠ a →
            r.StartsWith env.types t.graph (sharing.representative a) Pin.defaultValue) ∧
          (sharing.representative a = a →
            (r.StartsWith env.types t.graph a (t.graph.textAt callSite) ∨
              r.StartsWith env.types t.graph a Pin.defaultValue) ∧
            (t.ChildrenAcyclic → t.UsedWithin sharing a callSite →
              r.StartsWith env.types t.graph a (t.graph.textAt callSite))) := by
  obtain ⟨sharing, checked, prepared, s, hissues, hs, rfl, hsharing, hexists, hparts, hwith, hpasses, hfailed⟩ :=
    exists_built h
  have hwf := (valid_of_issues hissues).graph
  refine ⟨s, sharing, checked, prepared, hs, rfl, hsharing, hpasses, ?_⟩
  intro e a callSite he hvalue hroot hon hinner hnone hsole
  have hleast := representative_isRoot hparts hroot
  obtain ⟨key, hkey⟩ : ∃ key, (sharing.representative a).path t.graph = .ok key := by
    obtain ⟨o, ho⟩ := hvalue.exists_operand hpasses he hfailed rfl
    obtain ⟨key, -, hkey, -⟩ := (hvalue.varAt hroot).named hwith hnone (mem_of_lookup ho)
    exact ⟨key, hkey⟩
  obtain ⟨o, r, spec, ho, hmemory, hr, ⟨frames, hcaptured, -, hspec⟩, hbuild⟩ :=
    hvalue.exists_register (kept_anywhere hg hwf hexists hleast.isSome hkey) hwith hpasses hfailed he hroot hnone
      rfl
  refine ⟨o, r, ho, hmemory, hr, fun hother => ?_, fun hself => ?_⟩
  · -- The only pin of a function in the group is not the least.
    obtain ⟨id, pin, hid, hpin, -⟩ := hleast
    obtain ⟨node, hnode⟩ := hwf.owned hpin
    have hkind : node.kind ≠ .functionEntry := fun hkind =>
      hother (hsole _ (hparts.representative_least a).1 ⟨id, pin, node, hid, hpin, hnode, hkind⟩)
    exact startsWith_of_pinSpec hspec hbuild hid hpin hnode (defaultText_eq_own hkind)
  · obtain ⟨id, pin, node, hid, hpin, hnode, hkind⟩ := hon
    rw [hself] at hspec hkey
    refine ⟨?_, fun hacyclic huses => ?_⟩
    · by_cases hmem : callSite ∈ frames.map ArgumentFrame.callSite
      · exact .inl (startsWith_of_pinSpec hspec hbuild hid hpin hnode (defaultText_of_mem hkind hinner hcaptured hmem))
      · exact .inr (startsWith_of_pinSpec hspec hbuild hid hpin hnode (defaultText_of_notMem hkind hinner hmem))
    · obtain ⟨o', r', spec', ho', -, hr', ⟨frames', hcaptured', hmem, hspec'⟩, hbuild'⟩ :=
        hvalue.exists_register (huses.kept hg hwf hexists hroot.isSome hkey hacyclic) hwith hpasses hfailed he
          hroot hnone hself
      cases ho.symm.trans ho'
      cases hr.symm.trans hr'
      exact startsWith_of_pinSpec hspec' hbuild' hid hpin hnode (defaultText_of_mem hkind hinner hcaptured' hmem)

end Tree
/-! ## A call with an argument -/

/-- A call site gives the amount 7, and the pin of the function with the amount is linked to an input. -/
def scaleTree (argument used : PinId) : Tree where
  graph := {
    nodes := [⟨"Go", .event "Go", [], none⟩, ⟨"Call", .functionReference "Scale", [0], none⟩,
      ⟨"Args", .functionEntry, [argument], none⟩, ⟨"Use", .unit "use", [used], none⟩]
    pins :=
      let amount : Pin :=
        { node := 2, name := "Amount", direction := .output, typeName := "int32", defaultValue := "1" }
      let value : Pin := { node := 3, name := "Value", direction := .input, typeName := "int32" }
      { node := 1, name := "Amount", direction := .input, typeName := "int32", defaultValue := "7" } ::
        if argument < used then [amount, value] else [value, amount] }
  functions := [⟨"Scale", []⟩]
  exprs := [
    { kind := .entry, name := "Go", children := [1, 2], proxy := some ⟨[], .node 0⟩ },
    { kind := .var, name := "Amount", proxy := some ⟨[1], .pin argument⟩ },
    { kind := .call, name := "Use", children := [3], proxy := some ⟨[1], .node 3⟩ },
    { kind := .var, name := "Value", proxy := some ⟨[1], .pin used⟩ }]
  roots := [0]
  links := [⟨⟨[1], .pin argument⟩, ⟨[1], .pin used⟩⟩]

def scaleSharing : Sharing := ⟨[[⟨[1], .pin 1⟩, ⟨[1], .pin 2⟩]]⟩

theorem ofTree_scaleTree : Sharing.ofTree (scaleTree 1 2) = .ok scaleSharing := by cbv

theorem ofTree_scaleTree_reversed : Sharing.ofTree (scaleTree 2 1) = .ok scaleSharing := by cbv

theorem lowered_scaleTree : ∃ s, (scaleTree 1 2).lowered useEnv {} = .ok s ∧ s.report.errors = 0 := by
  rw [Tree.lowered_eq ofTree_scaleTree]
  exact Checked.exists_ok_of_any (by decide +kernel)

theorem visited_scaleTree : ∃ r, Context.lowerRoots ⟨scaleTree 1 2, useEnv, {}, scaleSharing, .setup⟩ {} = .ok r ∧
    r.2.visited = [3, 2, 1, 0] :=
  Checked.exists_ok_of_any (by decide +kernel)

theorem plainNames_scaleTree : (scaleTree 1 2).graph.PlainNames :=
  .of_pairwise (by decide) (by decide) (by decide) (by decide)

theorem childrenAcyclic_scaleTree : (scaleTree 1 2).ChildrenAcyclic :=
  Tree.childrenAcyclic_of_lt (Tree.forall_isChild.2 (by decide))

/-- The variable expressions of the group are inside the call, and nothing is below them. -/
theorem usedWithin_scaleTree : (scaleTree 1 2).UsedWithin scaleSharing ⟨[1], .pin 1⟩ 1 := by
  have hinside : ∀ x ∈ (scaleTree 1 2).exprs, x.kind = .var ∨ x.kind.isTransfer = true →
      x.children = [] ∧ (∀ p ∈ x.proxy, 1 ∈ p.callStack) ∧
        (x.pin?.bind (scaleTree 1 2).graph.pin?).any Pin.isExecute = false := by decide
  have huse {e : ExprId} {x : Expression} (huses : (scaleTree 1 2).Uses scaleSharing ⟨[1], .pin 1⟩ e)
      (hx : (scaleTree 1 2).expr? e = some x) := hinside x (List.mem_of_getElem? hx) (huses.kind hx)
  refine ⟨fun huses hbelow hx hp => ?_, fun huses hx _ => (huse huses hx).2.2⟩
  rcases Relation.ReflTransGen.cases_head hbelow with rfl | ⟨c, ⟨y, hy, hc⟩, -⟩
  · exact (huse huses hx).2.1 _ hp
  · rw [(huse huses hy).1] at hc
    cases hc

/-- The pin of the function comes first, and its register starts with 7. -/
theorem Tree.arguments_reach_least_scaleTree : ∃ q report o r,
    (scaleTree 1 2).compile useEnv {} = .ok ⟨.ok q, report⟩ ∧ (scaleTree 1 2).graph.PlainNames ∧
      (scaleTree 1 2).ValueAt .var 1 ⟨[1], .pin 1⟩ ∧ o.memory = .work ∧ q.register? o = some r ∧
      r.defaultValues = ["7"] := by
  obtain ⟨s, hs, herrors⟩ := lowered_scaleTree
  obtain ⟨report, hcompile⟩ :=
    Tree.exists_compile_of_lowered (show (scaleTree 1 2).issues useEnv = .ok [] from rfl) hs herrors
  obtain ⟨s', sharing, checked, prepared, -, -, hsharing, hpasses, hreach⟩ :=
    Tree.arguments_reach_least hcompile plainNames_scaleTree
  cases ofTree_scaleTree.symm.trans hsharing
  have hvisited : 1 ∈ prepared.visited := by
    obtain ⟨r, hr, hvisited⟩ := visited_scaleTree
    cases hpasses.checks
    cases hr.symm.trans hpasses.prepares
    rw [show prepared.visited = [3, 2, 1, 0] from hvisited]
    decide
  have hvalue : (scaleTree 1 2).ValueAt .var 1 ⟨[1], .pin 1⟩ := ⟨_, rfl, rfl, rfl, rfl⟩
  have hgroup {p : Proxy} (hp : p ∈ scaleSharing.group ⟨[1], .pin 1⟩) : p = ⟨[1], .pin 1⟩ ∨ p = ⟨[1], .pin 2⟩ := by
    simpa [Sharing.group, scaleSharing] using hp
  have hnone : (scaleTree 1 2).NoVariables scaleSharing ⟨[1], .pin 1⟩ := by
    intro p hp
    rcases hgroup hp with rfl | rfl <;> rfl
  have hsole : ∀ b ∈ scaleSharing.group ⟨[1], .pin 1⟩, b.IsOn (scaleTree 1 2).graph .functionEntry →
      b = ⟨[1], .pin 1⟩ := by
    intro b hb hon
    rcases hgroup hb with rfl | rfl
    · rfl
    · obtain ⟨id, pin, node, hid, hpin, hnode, hkind⟩ := hon
      cases hid
      cases hpin
      cases hnode
      cases hkind
  obtain ⟨o, r, -, hmemory, hr, -, hleast⟩ :=
    hreach hvisited hvalue ⟨1, _, rfl, rfl, rfl⟩ ⟨1, _, _, rfl, rfl, rfl, rfl⟩ rfl hnone hsole
  obtain ⟨id, pin, node, hid, hpin, hnode, hstarts⟩ := (hleast rfl).2 childrenAcyclic_scaleTree usedWithin_scaleTree
  cases hid
  cases hpin
  cases hnode
  have hseven : r.defaultValues = ["7"] := Except.ok.inj (Except.ok.inj (hstarts.symm.trans (by decide +kernel)))
  exact ⟨_, report, o, r, hcompile, plainNames_scaleTree, hvalue, hmemory, hr, hseven⟩

/-- The input comes before the pin of the function, and their register starts with its zero. -/
theorem scaleTree_loses_argument : ∃ q report s r, (scaleTree 2 1).compile useEnv {} = .ok ⟨.ok q, report⟩ ∧
    (scaleTree 2 1).lowered useEnv {} = .ok s ∧ q = s.program [] ∧ (scaleTree 2 1).ValueAt .var 1 ⟨[1], .pin 2⟩ ∧
      Proxy.IsOn (scaleTree 2 1).graph ⟨[1], .pin 2⟩ .functionEntry ∧
      (∀ l ∈ (scaleTree 2 1).links, l.target ≠ ⟨[1], .pin 2⟩) ∧
      (scaleTree 2 1).graph.argument? 1 "Amount" = some "7" ∧ s.operands.lookup 1 = some ⟨.work, 0, none⟩ ∧
      q.register? ⟨.work, 0, none⟩ = some r ∧ r.defaultValues = ["0"] := by
  have hlowered : ∃ s, (scaleTree 2 1).lowered useEnv {} = .ok s ∧ s.report.errors = 0 ∧
      s.operands.lookup 1 = some ⟨.work, 0, none⟩ ∧ s.storage.work.registers.map Register.defaultValues = [["0"]] := by
    rw [Tree.lowered_eq ofTree_scaleTree_reversed]
    exact Checked.exists_ok_of_any (by decide +kernel)
  obtain ⟨s, hs, herrors, hoperand, hregisters⟩ := hlowered
  obtain ⟨report, hcompile⟩ :=
    Tree.exists_compile_of_lowered (show (scaleTree 2 1).issues useEnv = .ok [] from rfl) hs herrors
  obtain ⟨r, hr, hdefault⟩ : ∃ r, s.storage.work.registers[0]? = some r ∧ r.defaultValues = ["0"] := by
    have hzero : (s.storage.work.registers.map Register.defaultValues)[0]? = some ["0"] := by rw [hregisters]; rfl
    rw [List.getElem?_map] at hzero
    exact Option.map_eq_some_iff.1 hzero
  exact ⟨_, report, s, r, hcompile, hs, rfl, ⟨_, rfl, rfl, rfl, rfl⟩, ⟨2, _, _, rfl, rfl, rfl, rfl⟩, by decide,
    by decide, hoperand, hr, hdefault⟩

end NodeGraph
