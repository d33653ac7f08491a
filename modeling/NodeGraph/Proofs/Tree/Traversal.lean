import NodeGraph.Proofs.Graph.Parents
import NodeGraph.Proofs.Tree.Valid
import NodeGraph.Tree.Builder

/-!
# Nodes with their pins

A node expression gets one value for each pin of its node, sub-pins included. `pinsBelow` lists them as a
traversal in pre-order: a pin is followed by what is below it (`Preorder`). Taking pins one by one from a list
of pending ones, and putting the sub-pins of each in front of the others, meets them in the same order
(`Drains`). In a well-formed graph the traversal ends, because the chain of a sub-pin is longer than that of
its parent and no chain is longer than the number of pins.

What an operation does to the arena of expressions is said by an equation: an expression below a parent
changes the child list of that parent and adds one expression at the end (`add_below`), and so a node with its
pins adds exactly its expression and its values (`addNodeWithPins_appends`).
-/
namespace NodeGraph

open Checked

namespace Graph

variable {g : Graph} {p q : PinId} {pin : Pin} {pins out : List PinId} {steps : Nat}

/-! ## Traversals -/

/-- The pins of the first list, each directly followed by its sub-pins and what is below them. -/
inductive Preorder (g : Graph) : List PinId → List PinId → Prop
  | nil : Preorder g [] []
  | cons {p : PinId} {pin : Pin} {pins below rest : List PinId} (hp : g.pin? p = some pin)
      (hbelow : Preorder g pin.subPins below) (hrest : Preorder g pins rest) :
      Preorder g (p :: pins) (p :: (below ++ rest))

/-- The order in which pins are taken from a list of pending ones, if the sub-pins of a pin that is taken go
to the front. -/
inductive Drains (g : Graph) : List PinId → List PinId → Prop
  | done : Drains g [] []
  | take {p : PinId} {pin : Pin} {pending taken : List PinId} (hp : g.pin? p = some pin)
      (htaken : Drains g (pin.subPins ++ pending) taken) : Drains g (p :: pending) (p :: taken)

/-- A pending pin is taken with all that is below it before the next one. -/
theorem Preorder.drains_append (h : g.Preorder pins out) {pending taken : List PinId}
    (hpending : g.Drains pending taken) :
    g.Drains (pins ++ pending) (out ++ taken) := by
  induction h generalizing pending taken with
  | nil => exact hpending
  | cons hp _ _ ihbelow ihrest =>
    rw [List.cons_append, List.cons_append, List.append_assoc]
    exact .take hp (ihbelow (ihrest hpending))

theorem Preorder.drains (h : g.Preorder pins out) : g.Drains pins out := by
  simpa using h.drains_append .done

theorem Preorder.exists_pin (h : g.Preorder pins out) : ∀ q ∈ out, ∃ pin, g.pin? q = some pin := by
  induction h with
  | nil => simp
  | cons hp _ _ ihbelow ihrest =>
    exact List.forall_mem_cons.2 ⟨⟨_, hp⟩, List.forall_mem_append.2 ⟨ihbelow, ihrest⟩⟩

theorem pinsBelow_cons (g : Graph) (steps : Nat) (p : PinId) (pins : List PinId) :
    Tree.pinsBelow g (steps + 1) (p :: pins) = g.pin p >>= fun pin =>
      Tree.pinsBelow g steps pin.subPins >>= fun below =>
      Tree.pinsBelow g (steps + 1) pins >>= fun rest => .ok (p :: (below ++ rest)) := by
  rw [Tree.pinsBelow, Tree.pinsBelow, mapM_cons]
  simp only [bind_assoc]
  rfl

/-- One level more is listed if what is below each pin is. -/
theorem exists_pinsBelow_succ (h : ∀ p ∈ pins, ∃ pin below, g.pin? p = some pin ∧
      Tree.pinsBelow g steps pin.subPins = .ok below ∧ g.Preorder pin.subPins below) :
    ∃ out, Tree.pinsBelow g (steps + 1) pins = .ok out ∧ g.Preorder pins out := by
  induction pins with
  | nil => exact ⟨[], rfl, .nil⟩
  | cons p pins ih =>
    obtain ⟨pin, below, hp, hbelow, hpre⟩ := h p (by simp)
    obtain ⟨rest, hrest, hpre'⟩ := ih fun q hq => h q (by simp [hq])
    refine ⟨p :: (below ++ rest), ?_, .cons hp hpre hpre'⟩
    rw [pinsBelow_cons, pin_eq_ok.2 hp, ok_bind, hbelow, ok_bind, hrest]
    rfl

/-- Below pins with long chains there is little left. -/
theorem WellFormed.exists_pinsBelow_of_chains (h : g.WellFormed)
    (hpins : ∀ p ∈ pins, ∃ c, g.chain p = .ok c ∧ g.pins.length < c.below.length + steps) :
    ∃ out, Tree.pinsBelow g steps pins = .ok out ∧ g.Preorder pins out := by
  induction steps generalizing pins with
  | zero =>
    cases pins with
    | nil => exact ⟨[], rfl, .nil⟩
    | cons p pins =>
      obtain ⟨c, hc, hlt⟩ := hpins p (by simp)
      exact absurd (length_below_lt hc) (Nat.lt_asymm hlt)
  | succ steps ih =>
    refine exists_pinsBelow_succ fun p hp => ?_
    obtain ⟨c, hc, hlt⟩ := hpins p hp
    obtain ⟨pin, hpin, -⟩ := chainWithin_cases hc
    have hsubs : ∀ sub ∈ pin.subPins, ∃ c, g.chain sub = .ok c ∧ g.pins.length < c.below.length + steps := by
      intro sub hsub
      obtain ⟨lower, hlower, hparent⟩ := h.below hpin hsub
      refine ⟨_, chain_of_parent hlower hparent hc, ?_⟩
      rw [List.length_append, List.length_singleton, Nat.add_right_comm]
      exact hlt
    obtain ⟨below, hbelow, hpre⟩ := ih hsubs
    exact ⟨pin, below, hpin, hbelow, hpre⟩

/-- The pins of a node are listed in pre-order. -/
theorem WellFormed.exists_pinsBelow (h : g.WellFormed) {n : NodeId} {node : Node} (hn : g.node? n = some node) :
    ∃ out, Tree.pinsBelow g (g.pins.length + 1) node.pins = .ok out ∧ g.Preorder node.pins out := by
  refine h.exists_pinsBelow_of_chains fun p hp => ?_
  obtain ⟨pin, hpin, -, hroot⟩ := h.listed hn hp
  exact ⟨⟨p, pin, []⟩, chainWithin_of_root hpin hroot, by simp⟩

end Graph

/-! ## The arena of expressions -/

namespace Tree

variable {t : Tree} {x above : Expression} {parent : ExprId} {name : String}

/-- An expression below a parent is the last of the tree and of the children of that parent. -/
theorem add_below (hparent : t.expr? parent = some above) (x : Expression) : t.add x (some parent) =
    .ok ({ t with exprs := t.exprs.set parent { above with children := above.children ++ [t.exprs.length] } ++
      [{ x with parents := x.parents ++ [parent] }] }, t.exprs.length) := by
  have hlt : parent < t.exprs.length := (List.getElem?_eq_some_iff.1 hparent).1
  have habove : Checked.get .missingExpression (t.exprs ++ [x]) parent = .ok above := by
    rw [get_eq_ok, List.getElem?_append_left hlt]
    exact hparent
  have hnew : Checked.get .missingExpression ((t.exprs ++ [x]).set parent
      { above with children := above.children ++ [t.exprs.length] }) t.exprs.length = .ok x := by
    rw [get_eq_ok, List.getElem?_set_ne (Nat.ne_of_lt hlt)]
    simp
  unfold add attach expr
  dsimp only
  rw [habove, ok_bind, hnew, ok_bind, List.set_append_left _ _ hlt,
    List.set_append_right _ _ (Nat.le_of_eq List.length_set), List.length_set, Nat.sub_self]
  rfl

theorem addFor_below (kind : ExprKind) (proxy : Proxy) (hparent : t.expr? parent = some above)
    (hpath : proxy.path t.graph = .ok name) : t.addFor kind (some parent) proxy =
      .ok ({ t with exprs := t.exprs.set parent { above with children := above.children ++ [t.exprs.length] } ++
        [{ kind, name, parents := [parent], proxy := some proxy }] }, t.exprs.length) := by
  rw [addFor, hpath, ok_bind, add_below hparent]
  rfl

/-- The value below `parent` that stands for a pin. -/
def valueBelow (parent : ExprId) (s : CallStack) (p : PinId) (name : String) : Expression :=
  { kind := .var, name, parents := [parent], proxy := some ⟨s, .pin p⟩ }

/-- The expression below `parent` that stands for a node. -/
def nodeBelow (kind : ExprKind) (parent : ExprId) (node : Proxy) (name : String) (children : List ExprId) :
    Expression :=
  { kind, name, parents := [parent], children, proxy := some node }

/-- Values are added at the end, and their ids are added to the children of their parent. -/
theorem addVars_eq (t : Tree) (proxy : Proxy) (front vars : List Expression) (head : Expression) {pins : List PinId}
    {names : List String}
    (hnames : (pins.mapM fun p => Proxy.path t.graph ⟨proxy.callStack, .pin p⟩) = .ok names) :
    addVars { t with exprs := front ++ head :: vars } front.length proxy pins = .ok { t with exprs := front ++
      { head with children := head.children ++ List.range' (front ++ head :: vars).length pins.length } ::
        (vars ++ List.zipWith (valueBelow front.length proxy.callStack) pins names) } := by
  induction pins generalizing head vars names with
  | nil =>
    cases hnames
    simp only [List.length_nil, List.range'_zero, List.append_nil, List.zipWith_nil_left]
    rfl
  | cons p pins ih =>
    obtain ⟨name, names', rfl, hpath, hnames'⟩ := mapM_cons_eq_ok hnames
    have hparent : expr? { t with exprs := front ++ head :: vars } front.length = some head := by simp [expr?]
    rw [addVars, addFor_below .var (proxy.withPin p) hparent hpath, ok_bind]
    have hgrown := ih (vars ++ [valueBelow front.length proxy.callStack p name])
      { head with children := head.children ++ [(front ++ head :: vars).length] } hnames'
    simp only [List.set_append_right _ _ (Nat.le_refl _), Nat.sub_self, List.set_cons_zero, List.append_assoc,
      List.cons_append]
    refine hgrown.trans ?_
    simp [List.range'_succ, Nat.add_assoc]

/-- In a graph without structural issues, adding a node with its pins comes to an end. It appends the
expression of the node and one value for each pin of the pre-order traversal of the pins of the node, all seen
through the call stack of the node. The values are the children of the new expression, in that order, which is
also the order of a list of pending pins. Nothing else changes but the child list of the parent. -/
theorem addNodeWithPins_appends (t : Tree) (hgraph : t.graph.structureIssues = []) (kind : ExprKind) (parent : ExprId)
    (above : Expression) (hparent : t.expr? parent = some above) (s : CallStack) (hs : s.ExistsIn t.graph) (n : NodeId)
    (owner : Node) (hn : t.graph.node? n = some owner) :
    ∃ pins name names, t.graph.Preorder owner.pins pins ∧ t.graph.Drains owner.pins pins ∧
      Proxy.path t.graph ⟨s, .node n⟩ = .ok name ∧
      (pins.mapM fun p => Proxy.path t.graph ⟨s, .pin p⟩) = .ok names ∧
      t.addNodeWithPins kind parent ⟨s, .node n⟩ = .ok
        ({ t with exprs := t.exprs.set parent { above with children := above.children ++ [t.exprs.length] } ++
            nodeBelow kind parent ⟨s, .node n⟩ name (List.range' (t.exprs.length + 1) pins.length) ::
              List.zipWith (valueBelow t.exprs.length s) pins names },
          t.exprs.length) := by
  have hwf := Graph.wellFormed_of_structureIssues hgraph
  obtain ⟨pins, hpins, hpre⟩ := hwf.exists_pinsBelow hn
  have hsites : s.all (fun site => (t.graph.node? site).isSome) = true :=
    List.all_eq_true.2 fun site hsite => Option.isSome_iff_exists.2 (hs site hsite)
  obtain ⟨name, hname⟩ := hwf.exists_path_of_isKnown (p := ⟨s, .node n⟩) (by simp [Proxy.isKnown, hn, hsites])
  obtain ⟨names, hnames⟩ := exists_mapM (f := fun p => Proxy.path t.graph ⟨s, .pin p⟩) (l := pins) fun q hq => by
    obtain ⟨pin, hpin⟩ := hpre.exists_pin q hq
    exact hwf.exists_path_of_isKnown (by simp [Proxy.isKnown, hpin, hsites])
  refine ⟨pins, name, names, hpre, hpre.drains, hname, hnames, ?_⟩
  have hvars := addVars_eq t ⟨s, .node n⟩
    (t.exprs.set parent { above with children := above.children ++ [t.exprs.length] }) []
    (nodeBelow kind parent ⟨s, .node n⟩ name []) hnames
  rw [List.length_set] at hvars
  have hnode : t.graph.node n = .ok owner := Graph.node_eq_ok.2 hn
  rw [addNodeWithPins, addFor_below kind ⟨s, .node n⟩ hparent hname, ok_bind]
  dsimp only
  show t.graph.node n >>= _ = _
  rw [hnode, ok_bind, hpins, ok_bind]
  refine (congrArg (· >>= _) hvars).trans ?_
  simp [nodeBelow]

/-- A block over a graph with a call site and a node, the first pin of which has two levels of sub-pins. -/
def nestedMarks : Tree where
  graph :=
    { nodes := [{ name := "Site", kind := .functionReference "Body" },
        { name := "Split", kind := .branch, pins := [0, 4] }]
      pins :=
        [{ node := 1, name := "Mark", direction := .input, typeName := "Mark", subPins := [1, 3] },
          { node := 1, name := "Axis", direction := .input, typeName := "Axis", parent := some 0, subPins := [2] },
          { node := 1, name := "Along", direction := .input, typeName := "double", parent := some 1 },
          { node := 1, name := "Size", direction := .input, typeName := "double", parent := some 0 },
          { node := 1, name := "Done", direction := .output, typeName := "bool" }] }
  exprs := [{ kind := .block, name := "Body" }]
  roots := [0]

theorem addNodeWithPins_appends_nestedMarks : nestedMarks.graph.structureIssues = [] ∧
    ∃ pins name names, nestedMarks.graph.Preorder [0, 4] pins ∧ nestedMarks.graph.Drains [0, 4] pins ∧
      Proxy.path nestedMarks.graph ⟨[0], .node 1⟩ = .ok name ∧
      (pins.mapM fun p => Proxy.path nestedMarks.graph ⟨[0], .pin p⟩) = .ok names ∧
      nestedMarks.addNodeWithPins .branch 0 ⟨[0], .node 1⟩ = .ok
        ({ nestedMarks with
            exprs := { kind := .block, name := "Body", children := [1] } ::
              nodeBelow .branch 0 ⟨[0], .node 1⟩ name (List.range' 2 pins.length) ::
                List.zipWith (valueBelow 1 [0]) pins names },
          1) := by
  have hissues : nestedMarks.graph.structureIssues = [] := by decide
  have hsites : CallStack.ExistsIn nestedMarks.graph [0] := List.forall_mem_singleton.2 ⟨_, rfl⟩
  exact ⟨hissues, addNodeWithPins_appends nestedMarks hissues .branch 0 _ rfl [0] hsites 1 _ rfl⟩

-- The values stand for the pins in order of declaration, and sub-pins follow their parents.
example : (nestedMarks.addNodeWithPins .branch 0 ⟨[0], .node 1⟩).toOption.map
    (fun r => (r.2, r.1.exprs.map fun x => (x.children, x.pin?))) =
      some (1, [([1], none), ([2, 3, 4, 5, 6], none), ([], some 0), ([], some 1), ([], some 2), ([], some 3),
        ([], some 4)]) := by
  decide +kernel

end Tree
end NodeGraph
