import NodeGraph.Graph.Path

/-!
# Proxies

Inside a reusable function the same node is seen once per call site. A proxy is a node or a pin
together with the call sites it is seen through, outermost first. Proxies are ordered by call stack,
then nodes before pins, then by id.
-/
namespace NodeGraph

/-! ## Call stacks -/

/-- The call sites around an element, outermost first. -/
abbrev CallStack := List NodeId

namespace CallStack

/-- The call site entered last. -/
def innermost (s : CallStack) : Option NodeId := s.getLast?

/-- The beginning `CallSite|CallSite|…` of every path seen through this call stack. -/
def pathPrefix (g : Graph) : CallStack → Checked String
  | [] => return ""
  | site :: sites => do
    let node ← g.node site
    return node.name ++ "|" ++ (← pathPrefix g sites)

end CallStack

/-! ## Proxies -/

inductive GraphRef where
  | node (id : NodeId)
  | pin (id : PinId)
deriving DecidableEq, Repr

namespace GraphRef

def compare : GraphRef → GraphRef → Ordering
  | node a, node b => Ord.compare a b
  | node _, pin _ => .lt
  | pin _, node _ => .gt
  | pin a, pin b => Ord.compare a b

instance : Ord GraphRef := ⟨compare⟩

/-- Text such as `node #3` or `pin #3`. -/
def describe : GraphRef → String
  | node id => "node #" ++ toString id
  | pin id => "pin #" ++ toString id

end GraphRef

structure Proxy where
  callStack : CallStack
  target : GraphRef
deriving DecidableEq, Repr

namespace Proxy

instance : Ord Proxy :=
  ⟨fun a b => (compare a.callStack b.callStack).then (compare a.target b.target)⟩

def pin? (p : Proxy) : Option PinId :=
  match p.target with
  | .pin id => some id
  | .node _ => none

/-- The node itself, or the node a pin belongs to. -/
def nodeId (g : Graph) (p : Proxy) : Checked NodeId :=
  match p.target with
  | .node id => return id
  | .pin id => return (← g.pin id).node

/-- A pin seen through the same call stack. -/
def withPin (p : Proxy) (pin : PinId) : Proxy := { p with target := .pin pin }

/-- The path `CallSite|Node.Pin`, or `CallSite|Node` for a node. -/
def path (g : Graph) (p : Proxy) : Checked String := do
  let sites ← CallStack.pathPrefix g p.callStack
  match p.target with
  | .node id => return sites ++ (← g.node id).name
  | .pin id => return sites ++ (← g.pinPath id)

end Proxy

/-- A data link: the value of `source` flows into `target`. -/
structure ProxyLink where
  source : Proxy
  target : Proxy
deriving DecidableEq, Repr

def ProxyLink.describe (g : Graph) (l : ProxyLink) : Checked String := do
  return (← l.source.path g) ++ " -> " ++ (← l.target.path g)

end NodeGraph
