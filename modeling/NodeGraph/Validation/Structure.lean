import NodeGraph.Diagnostic.Basic

/-!
# The structure of graphs

Nodes, pins and sub-pins must refer to each other consistently. Every violation is an issue of the node
or the pin that holds the wrong reference.
-/
namespace NodeGraph

/-- An error in a tree, before it is reported. -/
structure Issue where
  subject : Subject
  message : String
deriving DecidableEq, Repr

namespace Graph

/-- What is wrong with a node `n` listing a pin. -/
def listingIssue (g : Graph) (n : NodeId) (p : PinId) : Option String :=
  match g.pin? p with
  | none => some s!"refers to missing pin #{p}"
  | some pin =>
    if pin.node ≠ n then some s!"lists pin #{p} of another node"
    else if pin.parent.isSome then some s!"lists sub-pin #{p} as a pin"
    else none

def nodeIssues (g : Graph) (n : NodeId) (node : Node) : List Issue :=
  (node.pins.filterMap (g.listingIssue n)).map (⟨.node n, ·⟩)

/-- What is wrong with the place of a pin below its parent or on its node. -/
def placeIssue (g : Graph) (p : PinId) (pin : Pin) : Option String :=
  match pin.parent with
  | some parent =>
    match g.pin? parent with
    | none => some s!"refers to missing parent pin #{parent}"
    | some above =>
      if p ∉ above.subPins then some s!"is not listed by its parent pin #{parent}"
      else if above.node ≠ pin.node then some "belongs to another node than its parent pin"
      else none
  | none =>
    match g.node? pin.node with
    | none => none
    | some node => if p ∈ node.pins then none else some "is not listed by its node"

/-- What is wrong with a pin listing a sub-pin. -/
def subPinIssue (g : Graph) (p sub : PinId) : Option String :=
  if (g.pin? sub).any (·.parent = some p) then none
  else some s!"lists sub-pin #{sub} that is not its own"

/-- Everything wrong with the references of a pin. -/
def referenceIssues (g : Graph) (p : PinId) (pin : Pin) : List String :=
  (if (g.node? pin.node).isSome then [] else [s!"belongs to missing node #{pin.node}"]) ++
    (g.placeIssue p pin).toList ++ pin.subPins.filterMap (g.subPinIssue p)

/-- The issues of a pin. Parents are followed only from a pin whose own references are right. -/
def pinIssues (g : Graph) (p : PinId) (pin : Pin) : List Issue :=
  let messages := match g.referenceIssues p pin with
    | [] => if g.pinResolves p then [] else ["parent pins form a cycle"]
    | messages => messages
  messages.map (⟨.pin p, ·⟩)

/-- The issues of a graph: those of its nodes, then those of its pins. -/
def structureIssues (g : Graph) : List Issue :=
  g.nodes.zipIdx.flatMap (fun (node, n) => g.nodeIssues n node) ++
    g.pins.zipIdx.flatMap fun (pin, p) => g.pinIssues p pin

end Graph
end NodeGraph
