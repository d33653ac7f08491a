import Mathlib
import NodeGraph.Proofs.Compile.PassDiscipline
import NodeGraph.Proofs.Compile.SeparateLocals
import NodeGraph.Proofs.Compile.SharedOperands
import NodeGraph.Proofs.Tree.Issues

/-!
# Which variable a pin reads

A name means the local of the innermost function around it that declares it, or else a variable of the host
(`Denotes`). Links can join the pins of several variables in one group of shared pins, for instance if two
getters are linked to one input. Such a group has one place, that of the first of its variables, so a pin
reads its own variable if and only if that is where its group is kept (`variables_read_first`). The second of
two parameters linked to one input gets the value of the first (`meetTree_reads_first`).
-/
namespace NodeGraph

/-! ## What a name means -/

namespace Proxy

variable {g : Graph} {p : Proxy}

/-- A pin that carries the value of a variable or of a parameter. -/
def IsVariable (g : Graph) (p : Proxy) : Prop :=
  ∃ id pin node, p.pin? = some id ∧ g.pin? id = some pin ∧ pin.isExecute = false ∧
    g.node? pin.node = some node ∧ node.kind.isStorage = true

theorem IsVariable.isOn (h : p.IsVariable g) : ∃ kind, p.IsOn g kind ∧ kind.isStorage = true := by
  obtain ⟨id, pin, node, hid, hpin, -, hnode, hkind⟩ := h
  exact ⟨node.kind, ⟨id, pin, node, hid, hpin, hnode, rfl⟩, hkind⟩

theorem IsOn.unique {kind kind' : NodeKind} (h : p.IsOn g kind) (h' : p.IsOn g kind') : kind = kind' := by
  obtain ⟨id, pin, node, hid, hpin, hnode, rfl⟩ := h
  obtain ⟨id', pin', node', hid', hpin', hnode', rfl⟩ := h'
  cases hid.symm.trans hid'
  cases hpin.symm.trans hpin'
  cases hnode.symm.trans hnode'
  rfl

theorem isVariablePin_eq_true_iff : Lowering.isVariablePin g p = .ok true ↔ p.IsVariable g := by
  constructor
  · intro h
    unfold Lowering.isVariablePin at h
    split at h
    · cases h
    · next id hid =>
      obtain ⟨pin, hpin, h⟩ := Checked.bind_eq_ok.1 h
      split at h
      · cases h
      · next hexecute =>
        obtain ⟨node, hnode, h⟩ := Checked.bind_eq_ok.1 h
        exact ⟨id, pin, node, hid, Graph.pin_eq_ok.1 hpin, by simpa using hexecute, Graph.node_eq_ok.1 hnode,
          Except.ok.inj h⟩
  · rintro ⟨id, pin, node, hid, hpin, hexecute, hnode, hkind⟩
    unfold Lowering.isVariablePin
    rw [hid]
    dsimp only
    rw [Graph.pin_eq_ok.2 hpin, Checked.ok_bind, hexecute, Graph.node_eq_ok.2 hnode, if_neg (by simp),
      Checked.ok_bind, hkind]
    rfl

end Proxy

namespace CallStack

/-- The call sites of a stack, one for each depth. -/
theorem getElem?_sites {stack : CallStack} {depth : Nat} {site : CallStack} :
    stack.sites[depth]? = some site ↔ depth < stack.length ∧ site = stack.take (depth + 1) := by
  unfold sites
  simp only [List.getElem?_map, Option.map_eq_some_iff, List.getElem?_eq_some_iff, List.length_range,
    List.getElem_range]
  constructor
  · rintro ⟨_, ⟨hlt, rfl⟩, rfl⟩
    exact ⟨hlt, rfl⟩
  · rintro ⟨hlt, rfl⟩
    exact ⟨depth, ⟨hlt, rfl⟩, rfl⟩

/-- What comes after a call site in the list of all of them is deeper. -/
theorem mem_of_deeper {stack : CallStack} {front back : List CallStack} {site : CallStack} {inner : Nat}
    (h : stack.sites = back ++ site :: front) (hinner : back.length < inner) (hlt : inner < stack.length) :
    stack.take (inner + 1) ∈ front := by
  have hget : stack.sites[inner]? = some (stack.take (inner + 1)) := getElem?_sites.2 ⟨hlt, rfl⟩
  obtain ⟨k, rfl⟩ : ∃ k, inner = back.length + (k + 1) := ⟨inner - back.length - 1, by omega⟩
  rw [h, List.getElem?_append_right (Nat.le_add_right _ _), Nat.add_sub_cancel_left, List.getElem?_cons_succ] at hget
  exact List.mem_of_getElem? hget

end CallStack

namespace Tree

open Lowering

variable {t : Tree} {env : Environment} {options : CompileOptions} {stack : CallStack} {name : String}
  {p : Proxy} {site site' : Site} {x : Expression}

/-- The function called at a call site declares a local of that name. -/
def Declares (t : Tree) (callSite : CallStack) (name : String) : Prop :=
  ∃ function v, t.DeclaresAt callSite function v ∧ v.name = name

theorem not_declares_of_localAt {callSite : CallStack} (h : t.localAt name callSite = .ok none) :
    ¬ t.Declares callSite name := by
  rintro ⟨function, v, ⟨hfunction, hv⟩, hname⟩
  unfold localAt at h
  rw [hfunction, Checked.ok_bind] at h
  have hnone := Option.map_eq_none_iff.1 (Except.ok.inj h)
  exact List.find?_eq_none.1 hnone v hv (by simpa using hname)

/-- The local found is declared by the innermost function that declares one. -/
theorem innermost_of_findLocal {access : LocalAccess} (h : t.findLocal stack name = .ok (some access)) :
    ∃ depth < stack.length, access.callSite = stack.take (depth + 1) ∧ access.declaration.name = name ∧
      t.Declares (stack.take (depth + 1)) name ∧
      ∀ inner, depth < inner → inner < stack.length → ¬ t.Declares (stack.take (inner + 1)) name := by
  obtain ⟨front, site, back, hsites, hsite, hfront⟩ := Checked.first_of_findSomeM? h
  have hsites : stack.sites = back.reverse ++ site :: front.reverse := by
    rw [← List.reverse_reverse stack.sites, hsites]
    simp
  have hget : stack.sites[back.reverse.length]? = some site := by simp [hsites]
  obtain ⟨hdepth, rfl⟩ := CallStack.getElem?_sites.1 hget
  have hdeclares := declaresAt_of_findLocal h
  have haccess : access.callSite = stack.take (back.reverse.length + 1) ∧ access.declaration.name = name := by
    obtain ⟨function, -, hsite⟩ := Checked.bind_eq_ok.1 hsite
    cases function with
    | none => cases hsite
    | some function =>
      obtain ⟨v, hv, rfl⟩ := Option.map_eq_some_iff.1 (Except.ok.inj hsite)
      exact ⟨rfl, by simpa using List.find?_some hv⟩
  refine ⟨_, hdepth, haccess.1, haccess.2, ⟨_, _, haccess.1 ▸ hdeclares, haccess.2⟩, fun inner hinner hlt => ?_⟩
  have hmem := CallStack.mem_of_deeper hsites hinner hlt
  exact not_declares_of_localAt (hfront _ (List.mem_reverse.1 hmem))

theorem not_declares_of_findLocal (h : t.findLocal stack name = .ok none) {depth : Nat} (hlt : depth < stack.length) :
    ¬ t.Declares (stack.take (depth + 1)) name := by
  have hmem : stack.take (depth + 1) ∈ stack.sites :=
    List.mem_of_getElem? (CallStack.getElem?_sites.2 ⟨hlt, rfl⟩)
  exact not_declares_of_localAt (Checked.none_of_findSomeM? h _ (List.mem_reverse.2 hmem))

/-- Where the variable that a pin stands for is kept. -/
inductive Denotes (t : Tree) (env : Environment) (p : Proxy) : Site → Prop
  | parameter {name : String} {isInput : Bool} (hkind : p.IsOn t.graph (.parameter name isInput)) :
    Denotes t env p (.register ("Parameter::" ++ name))
  | localVariable {name key : String} {isGetter : Bool} {depth : Nat}
    (hkind : p.IsOn t.graph (.variableAccess name isGetter)) (hdepth : depth < p.callStack.length)
    (hdeclares : t.Declares (p.callStack.take (depth + 1)) name)
    (hinner : ∀ inner, depth < inner → inner < p.callStack.length → ¬ t.Declares (p.callStack.take (inner + 1)) name)
    (hkey : localKey t.graph (p.callStack.take (depth + 1)) name = .ok key) : Denotes t env p (.register key)
  | external {name : String} {isGetter : Bool} {index : Nat} {v : ExternalVariable}
    (hkind : p.IsOn t.graph (.variableAccess name isGetter))
    (hnone : ∀ depth < p.callStack.length, ¬ t.Declares (p.callStack.take (depth + 1)) name)
    (hv : env.externals[index]? = some v) (hname : v.name = name)
    (hfirst : ∀ earlier < index, ∀ v', env.externals[earlier]? = some v' → v'.name ≠ name) :
    Denotes t env p (.external index)

/-- A pin stands for one variable. -/
theorem Denotes.unique (h : t.Denotes env p site) (h' : t.Denotes env p site') : site = site' := by
  cases h with
  | parameter hkind =>
    cases h' with
    | parameter hkind' => cases hkind.unique hkind'; rfl
    | localVariable hkind' => cases hkind.unique hkind'
    | external hkind' => cases hkind.unique hkind'
  | @localVariable _ _ _ depth hkind hdepth hdeclares hinner hkey =>
    cases h' with
    | parameter hkind' => cases hkind.unique hkind'
    | @localVariable _ _ _ depth' hkind' hdepth' hdeclares' hinner' hkey' =>
      cases hkind.unique hkind'
      have hsame : depth = depth' := by
        rcases Nat.lt_trichotomy depth depth' with hlt | heq | hlt
        · exact absurd hdeclares' (hinner depth' hlt hdepth')
        · exact heq
        · exact absurd hdeclares (hinner' depth hlt hdepth)
      subst hsame
      cases hkey.symm.trans hkey'
      rfl
    | external hkind' hnone =>
      cases hkind.unique hkind'
      exact absurd hdeclares (hnone depth hdepth)
  | @external _ _ index _ hkind hnone hv hname hfirst =>
    cases h' with
    | parameter hkind' => cases hkind.unique hkind'
    | @localVariable _ _ _ depth hkind' hdepth hdeclares =>
      cases hkind.unique hkind'
      exact absurd hdeclares (hnone depth hdepth)
    | @external _ _ index' _ hkind' hnone' hv' hname' hfirst' =>
      cases hkind.unique hkind'
      rcases Nat.lt_trichotomy index index' with hlt | rfl | hlt
      · exact absurd hname (hfirst' index hlt _ hv)
      · rfl
      · exact absurd hname' (hfirst index' hlt _ hv')

/-- Lowering keeps a variable where its name says. -/
theorem denotes_of_variableSite {cx : Context} (h : cx.variableSite p = .ok (some site)) :
    cx.tree.Denotes cx.env p site := by
  unfold Context.variableSite at h
  dsimp only at h
  cases hid : p.pin? with
  | none =>
    rw [hid] at h
    cases h
  | some id =>
    rw [hid] at h
    obtain ⟨pin, hpin, h⟩ := Checked.bind_eq_ok.1 h
    obtain ⟨node, hnode, h⟩ := Checked.bind_eq_ok.1 h
    have hon := Proxy.isOn_of_ok hid hpin hnode
    generalize node.kind = kind at hon h
    cases kind with
    | parameter name isInput =>
      cases h
      exact .parameter hon
    | variableAccess name isGetter =>
      obtain ⟨found, hfound, h⟩ := Checked.bind_eq_ok.1 h
      cases found with
      | some access =>
        obtain ⟨key, hkey, h⟩ := Checked.bind_eq_ok.1 h
        cases h
        obtain ⟨depth, hdepth, hsite, hname, hdeclares, hinner⟩ := innermost_of_findLocal hfound
        rw [hsite, hname] at hkey
        exact .localVariable hon hdepth hdeclares hinner hkey
      | none =>
        obtain ⟨index, hindex, rfl⟩ := Option.map_eq_some_iff.1 (Except.ok.inj h)
        obtain ⟨hlt, hname, hfirst⟩ := List.findIdx?_eq_some_iff_getElem.1 hindex
        refine .external hon (fun depth hlt => not_declares_of_findLocal hfound hlt) (List.getElem?_eq_getElem hlt)
          (by simpa using hname) fun earlier hearlier v' hv' => ?_
        obtain ⟨hlt', rfl⟩ := List.getElem?_eq_some_iff.1 hv'
        simpa using hfirst earlier hearlier
    | _ => cases h

/-- A validated variable means something. -/
theorem exists_denotes {e : ExprId} (hissues : t.issues env = .ok []) (hx : t.expr? e = some x)
    (hvar : x.kind = .var) (hp : x.proxy = some p) (h : p.IsVariable t.graph) : ∃ site, t.Denotes env p site := by
  have hstack := Proxy.callStack_existsIn ((valid_of_issues hissues).proxy hx hp)
  obtain ⟨kind, hon, hstorage⟩ := h.isOn
  cases kind with
  | parameter name isInput => exact ⟨_, .parameter hon⟩
  | variableAccess name isGetter =>
    obtain ⟨found, hfound, -⟩ := exists_findLocal hstack name
    cases found with
    | some access =>
      obtain ⟨depth, hdepth, -, -, hdeclares, hinner⟩ := innermost_of_findLocal hfound
      have hsite : CallStack.ExistsIn t.graph (p.callStack.take (depth + 1)) := fun site hsite =>
        hstack site (List.mem_of_mem_take hsite)
      obtain ⟨text, htext⟩ := CallStack.exists_pathPrefix hsite
      have hkey : localKey t.graph (p.callStack.take (depth + 1)) name = .ok (text ++ "Local::" ++ name) := by
        rw [localKey, htext]
        rfl
      exact ⟨_, .localVariable hon hdepth hdeclares hinner hkey⟩
    | none =>
      obtain ⟨id, pin, node, hid, hpin, hnode, hkind⟩ := hon
      have hnodeKind : t.nodeKindOf e = .ok (some (.variableAccess name isGetter)) := by
        rw [nodeKindOf, expr_eq_ok.2 hx, Checked.ok_bind, hp]
        dsimp only
        rw [Proxy.nodeId_eq hid hpin, Checked.ok_bind, Graph.node_eq_ok.2 hnode, ← hkind]
        rfl
      rcases (complete_of_issues hissues hx).mapped hvar hnodeKind hp with ⟨access, haccess⟩ | hexternal
      · cases hfound.symm.trans haccess
      · obtain ⟨index, hindex⟩ := Option.isSome_iff_exists.1 hexternal
        have hsite : (⟨t, env, {}, {}, .setup⟩ : Context).variableSite p = .ok (some (.external index)) := by
          unfold Context.variableSite
          dsimp only
          rw [hid]
          dsimp only
          rw [Graph.pin_eq_ok.2 hpin, Checked.ok_bind, Graph.node_eq_ok.2 hnode, Checked.ok_bind, hkind]
          dsimp only
          rw [hfound, Checked.ok_bind]
          dsimp only
          rw [hindex]
          rfl
        exact ⟨_, denotes_of_variableSite hsite⟩
  | _ => cases hstorage

/-! ## The operand of a variable -/

section Operands

variable {sharing : Sharing} {checked prepared s : State} {e : ExprId} {o : Operand}

/-- A variable expression of a pin. -/
def IsVar (t : Tree) (e : ExprId) (p : Proxy) : Prop :=
  ∃ x, t.expr? e = some x ∧ x.kind = .var ∧ x.proxy = some p

theorem IsVar.varAt (h : t.IsVar e p) (hp : p.IsRoot t.graph) : t.VarAt e p "" := by
  obtain ⟨x, hx, hvar, hproxy⟩ := h
  obtain ⟨id, pin, hid, hpin, hroot⟩ := hp
  obtain ⟨hrootPin, hsegments⟩ := Graph.rootPin_of_isRoot (Graph.pin_eq_ok.2 hpin) hroot
  exact ⟨x, p, id, id, hx, hvar, hproxy, hid, hrootPin, (Proxy.withPin_self hid).symm, hsegments⟩

/-- The setup pass finds the operand of every value expression that it meets, unless it fails. -/
theorem Passes.prepared_knows (h : t.Passes env options sharing checked prepared s) (he : e ∈ prepared.visited)
    (hfailed : e ∉ prepared.failed) (hx : t.expr? e = some x) (hvalue : x.kind.isValue = true)
    (hexecute : (x.pin?.bind t.graph.pin?).any Pin.isExecute = false) : prepared.Knows e := by
  have hchecked : checked.failed = [] := congrArg State.failed h.checked_eq
  obtain ⟨-, hprovided⟩ := Context.provided_of_lowerRoots rfl hchecked h.prepares (.inl he)
  refine (hprovided.settled.resolve_left hfailed).operand ?_
  exact .value rfl (Tree.kind_eq hx) hvalue (Tree.pinOf_eq hx) hexecute

theorem Passes.knows_value (h : t.Passes env options sharing checked prepared s) (he : e ∈ prepared.visited)
    (hfailed : e ∉ s.failed) (hx : t.expr? e = some x) (hvalue : x.kind.isValue = true)
    (hexecute : (x.pin?.bind t.graph.pin?).any Pin.isExecute = false) : s.Knows e :=
  h.addsLate.operands (h.prepared_knows he (fun hmem => hfailed (h.addsLate.failed hmem)) hx hvalue hexecute)

/-- Sites with one operand are one. -/
theorem site_eq_of_holds (hs : t.loweredWith env options sharing = .ok s) (h : site.Holds s.storage o)
    (h' : site'.Holds s.storage o) : site = site' := by
  have hregister {key : String} {index : Nat} (hkey : s.storage.keyed.lookup key = some ⟨.external, index, none⟩) :
      False := by
    obtain ⟨-, table, -, htable, -⟩ := named_of_lowered hs hkey
    cases htable
  cases site with
  | register key =>
    cases site' with
    | register key' =>
      rw [(named_of_lowered hs h).key_eq (named_of_lowered hs h') rfl rfl]
    | external index =>
      cases h'
      exact (hregister h).elim
  | external index =>
    cases site' with
    | register key' =>
      cases h
      exact (hregister h').elim
    | external index' =>
      cases h
      cases h'
      rfl

/-- Without separators in names, variables that have registers have them in work memory. -/
theorem Denotes.memory_eq {key : String} (h : t.Denotes env p (.register key))
    (hs : t.loweredWith env options sharing = .ok s) (hsharing : sharing.ExistsIn t.graph) (hg : t.graph.PlainNames)
    (ho : s.storage.keyed.lookup key = some o) : o.memory = .work := by
  obtain ⟨table, r, build, -, -, hmakes, -⟩ := makes_of_named hs (named_of_lowered hs ho)
  cases h with
  | parameter hkind => exact (hmakes.of_parameterKey hg.bare hsharing).1
  | localVariable hkind hdepth hdeclares hinner hkey => exact (hmakes.of_localKey hg hsharing hkey).1

/-- The variable whose storage a group of pins has: the first one in it. -/
structure FirstVariable (t : Tree) (sharing : Sharing) (p first : Proxy) : Prop where
  mem : first ∈ sharing.group p
  isVariable : first.IsVariable t.graph
  least : ∀ q ∈ sharing.group p, q.IsVariable t.graph → (compare first q).isLE = true

theorem firstVariable_of_findM? {first : Proxy} {r : Proxy → Proxy → Prop} (hparts : sharing.Partitions r)
    (h : (sharing.group p).findM? (m := Checked) (isVariablePin t.graph) = .ok (some first)) :
    t.FirstVariable sharing p first := by
  obtain ⟨front, rest, hgroup, hfirst, hfront⟩ := Checked.first_of_findM? h
  refine ⟨by simp [hgroup], Proxy.isVariablePin_eq_true_iff.1 hfirst, fun q hq hvariable => ?_⟩
  rw [hgroup] at hq
  have hvariable := Proxy.isVariablePin_eq_true_iff.2 hvariable
  rcases List.mem_append.1 hq with hq | hq
  · cases (hfront q hq).symm.trans hvariable
  · rcases List.mem_cons.1 hq with rfl | hq
    · simp
    · have hascending := hparts.ascending p
      rw [hgroup] at hascending
      have hlt := (List.pairwise_cons.1 (List.pairwise_append.1 hascending).2.1).1 q hq
      simp [hlt]

/-- An operand of a variable expression is that of the first variable of its group. -/
theorem IsVar.exists_first (h : t.IsVar e p) (hp : p.IsRoot t.graph) (hvariable : p.IsVariable t.graph)
    (hs : t.loweredWith env options sharing = .ok s) (hparts : sharing.Partitions t.Shares) (ho : (e, o) ∈ s.operands) :
    ∃ first site, t.FirstVariable sharing p first ∧ t.Denotes env first site ∧ site.Holds s.storage o := by
  obtain ⟨site, base, hsite, hbase, heq⟩ := (h.varAt hp).locatedAt hs ho
  rw [if_pos rfl] at heq
  subst heq
  rcases Context.rootSite_cases hsite with ⟨first, hfound, hsite⟩ | ⟨hfound, -⟩
  · exact ⟨first, site, firstVariable_of_findM? hparts hfound, denotes_of_variableSite hsite, hbase⟩
  · have hnone := Checked.false_of_findM? hfound p (hparts.self p)
    cases hnone.symm.trans (Proxy.isVariablePin_eq_true_iff.2 hvariable)

end Operands

variable {s : State}

/-- Every variable expression on a root pin that is met and does not fail gets an operand. It is that of the first
variable of the pin's group, whatever else is linked to it, and so that of its own variable if and only if both
are kept in one place. If names contain no separators, the registers of variables are in work memory. -/
theorem variables_read_first (hissues : t.issues env = .ok []) (hs : t.lowered env options = .ok s) :
    ∃ sharing checked prepared, Sharing.ofTree t = .ok sharing ∧ t.Passes env options sharing checked prepared s ∧
      (∀ {e p}, e ∈ prepared.visited → e ∉ s.failed → t.IsVar e p → p.IsVariable t.graph → s.Knows e) ∧
      ∀ {e p o}, (e, o) ∈ s.operands → t.IsVar e p → p.IsRoot t.graph → p.IsVariable t.graph →
        ∃ first site own, t.FirstVariable sharing p first ∧ t.Denotes env first site ∧ site.Holds s.storage o ∧
          t.Denotes env p own ∧ (own.Holds s.storage o ↔ own = site) ∧
          (t.graph.PlainNames → ∀ key, site = .register key → o.memory = .work) := by
  have ht := valid_of_issues hissues
  obtain ⟨sharing, hsharing, hexists⟩ := Sharing.exists_ofTree ht
  have hparts : sharing.Partitions t.Shares := (Sharing.partitions_ofTree ht.hasPins).of_ok hsharing
  rw [lowered_eq hsharing] at hs
  obtain ⟨checked, prepared, hpasses⟩ := exists_passes hs
  refine ⟨sharing, checked, prepared, hsharing, hpasses, ?_, ?_⟩
  · rintro e p he hfailed ⟨x, hx, hvar, hp⟩ ⟨id, pin, node, hid, hpin, hexecute, -, -⟩
    refine hpasses.knows_value he hfailed hx (by rw [hvar]; rfl) ?_
    have hpin? : x.pin? = some id := by rw [Expression.pin?, hp, Option.bind_some, hid]
    rw [hpin?, Option.bind_some, hpin]
    exact hexecute
  · intro e p o ho hvar hp hvariable
    obtain ⟨first, site, hfirst, hdenotes, hholds⟩ := hvar.exists_first hp hvariable hs hparts ho
    obtain ⟨x, hx, hkind, hproxy⟩ := hvar
    obtain ⟨own, hown⟩ := exists_denotes hissues hx hkind hproxy hvariable
    refine ⟨first, site, own, hfirst, hdenotes, hholds, hown, ⟨fun h => ?_, ?_⟩, fun hg key hkey => ?_⟩
    · exact site_eq_of_holds hs h hholds
    · rintro rfl
      exact hholds
    · subst hkey
      exact hdenotes.memory_eq hs hexists hg hholds

end Tree

/-! ## One name at three depths -/

/-- A getter of `Total` inside two calls, inside one and outside, where each has a variable of this name. -/
def shadowTree : Tree where
  graph := {
    nodes := [⟨"Go", .event "Go", [], none⟩, ⟨"Outer", .functionReference "Sum", [], none⟩,
      ⟨"Inner", .functionReference "Count", [], none⟩, ⟨"Get", .variableAccess "Total" true, [0], none⟩]
    pins := [{ node := 3, name := "Value", direction := .output, typeName := "int32" }] }
  functions := [⟨"Sum", [{ name := "Total", typeName := "int32" }]⟩, totalFunction]
  exprs := [
    { kind := .entry, name := "Go", children := [1, 2, 3], proxy := some ⟨[], .node 0⟩ },
    { kind := .var, name := "Value", proxy := some ⟨[1, 2], .pin 0⟩ },
    { kind := .var, name := "Value", proxy := some ⟨[1], .pin 0⟩ },
    { kind := .var, name := "Value", proxy := some ⟨[], .pin 0⟩ }]
  roots := [0]

def shadowEnv : Environment where
  externals := [{ name := "Total", typeName := "int32" }]

theorem lowered_shadowTree : ∃ s, shadowTree.lowered shadowEnv {} = .ok s ∧
    s.operands = [(3, ⟨.external, 0, none⟩), (2, ⟨.work, 0, none⟩), (1, ⟨.work, 1, none⟩)] ∧ s.report.errors = 0 :=
  Checked.exists_ok_of_any (by decide +kernel)

theorem denotes_shadowTree :
    shadowTree.Denotes shadowEnv ⟨[1, 2], .pin 0⟩ (.register "Outer|Inner|Local::Total") := by
  have hdeclares : shadowTree.Declares [1, 2] "Total" :=
    ⟨totalFunction, { name := "Total", typeName := "int32" }, ⟨rfl, List.mem_cons_self⟩, rfl⟩
  have hon : Proxy.IsOn shadowTree.graph ⟨[1, 2], .pin 0⟩ (.variableAccess "Total" true) :=
    ⟨0, _, _, rfl, rfl, rfl, rfl⟩
  have hinner (inner : Nat) (h : 1 < inner) (hlt : inner < 2) :
      ¬ shadowTree.Declares ([1, 2].take (inner + 1)) "Total" := by omega
  exact .localVariable hon (show 1 < 2 by decide) hdeclares hinner rfl

/-- Inside both calls, the getter reads the local of the inner one. -/
theorem Tree.variables_read_first_shadowTree : shadowTree.issues shadowEnv = .ok [] ∧
    ∃ s o, shadowTree.lowered shadowEnv {} = .ok s ∧ shadowTree.IsVar 1 ⟨[1, 2], .pin 0⟩ ∧ (1, o) ∈ s.operands ∧
      s.storage.keyed.lookup "Outer|Inner|Local::Total" = some o := by
  obtain ⟨s, hs, hoperands, -⟩ := lowered_shadowTree
  have hsharing : Sharing.ofTree shadowTree = .ok {} := rfl
  have hvar : shadowTree.IsVar 1 ⟨[1, 2], .pin 0⟩ := ⟨_, rfl, rfl, rfl⟩
  have ho : (1, ⟨.work, 1, none⟩) ∈ s.operands := by simp [hoperands]
  obtain ⟨sharing, -, -, hsharing', -, -, hreads⟩ :=
    Tree.variables_read_first (show shadowTree.issues shadowEnv = .ok [] from rfl) hs
  cases hsharing.symm.trans hsharing'
  obtain ⟨first, site, own, hfirst, hsite, hholds, -⟩ :=
    hreads ho hvar ⟨0, _, rfl, rfl, rfl⟩ ⟨0, _, _, rfl, rfl, rfl, rfl, rfl⟩
  obtain rfl : first = ⟨[1, 2], .pin 0⟩ := by simpa [Sharing.group] using hfirst.mem
  cases hsite.unique denotes_shadowTree
  exact ⟨rfl, s, _, hs, hvar, ho, hholds⟩

/-! ## Two parameters that meet -/

/-- Two parameters are linked to one input. -/
def meetTree : Tree where
  graph := {
    nodes := [⟨"Go", .event "Go", [], none⟩, ⟨"GetLeft", .parameter "Left" true, [0], none⟩,
      ⟨"GetRight", .parameter "Right" true, [1], none⟩, ⟨"Use", .unit "use", [2], none⟩]
    pins := [
      { node := 1, name := "Value", direction := .output, typeName := "int32" },
      { node := 2, name := "Value", direction := .output, typeName := "int32" },
      { node := 3, name := "Value", direction := .input, typeName := "int32" }] }
  exprs := [
    { kind := .entry, name := "Go", children := [1, 2, 3], proxy := some ⟨[], .node 0⟩ },
    { kind := .var, name := "Value", proxy := some ⟨[], .pin 0⟩ },
    { kind := .var, name := "Value", proxy := some ⟨[], .pin 1⟩ },
    { kind := .call, name := "Use", children := [4], proxy := some ⟨[], .node 3⟩ },
    { kind := .var, name := "Value", proxy := some ⟨[], .pin 2⟩ }]
  roots := [0]
  links := [⟨⟨[], .pin 0⟩, ⟨[], .pin 2⟩⟩, ⟨⟨[], .pin 1⟩, ⟨[], .pin 2⟩⟩]

def useEnv : Environment where
  catalog := ⟨[⟨"use", [⟨"Value", .input⟩]⟩]⟩

theorem ofTree_meetTree :
    Sharing.ofTree meetTree = .ok ⟨[[⟨[], .pin 0⟩, ⟨[], .pin 1⟩, ⟨[], .pin 2⟩]]⟩ := by cbv

/-- The second parameter is given the register of the first, and has none of its own. -/
theorem meetTree_reads_first : meetTree.issues useEnv = .ok [] ∧
    ∃ s, meetTree.lowered useEnv {} = .ok s ∧ s.report.errors = 0 ∧ meetTree.IsVar 2 ⟨[], .pin 1⟩ ∧
      meetTree.Denotes useEnv ⟨[], .pin 1⟩ (.register "Parameter::Right") ∧
      s.operands.lookup 2 = some ⟨.work, 0, none⟩ ∧
      s.storage.keyed = [("Parameter::Left", ⟨.work, 0, none⟩)] := by
  have hlowered : ∃ s, meetTree.lowered useEnv {} = .ok s ∧ s.report.errors = 0 ∧
      s.operands.lookup 2 = some ⟨.work, 0, none⟩ ∧ s.storage.keyed = [("Parameter::Left", ⟨.work, 0, none⟩)] := by
    rw [Tree.lowered_eq ofTree_meetTree]
    exact Checked.exists_ok_of_any (by decide +kernel)
  obtain ⟨s, hs, herrors, hoperand, hkeyed⟩ := hlowered
  have hon : Proxy.IsOn meetTree.graph ⟨[], .pin 1⟩ (.parameter "Right" true) := ⟨1, _, _, rfl, rfl, rfl, rfl⟩
  exact ⟨rfl, s, hs, herrors, ⟨_, rfl, rfl, rfl⟩, .parameter hon, hoperand, hkeyed⟩

end NodeGraph
