import NodeGraph.Graph.Basic
import NodeGraph.Text.Split

/-!
# Pin paths

A pin is reached from its root pin through a chain of sub-pins. `chain` walks it once; the path
`Node.Pin.SubPin`, the root pin and the member path below the root are all read off its result.
`findByPath` goes the other way.
-/
namespace NodeGraph

/-- The way from a root pin down to one of its sub-pins. -/
structure PinChain where
  root : PinId
  rootPin : Pin
  /-- The pins below the root, down to the pin itself. -/
  below : List Pin
deriving DecidableEq, Repr

namespace PinChain

/-- How a sub-pin is addressed inside the pin above it: an element by its index, a member by its
name. -/
def segment (above pin : Pin) : String :=
  if above.isArray then "[" ++ pin.name ++ "]" else "." ++ pin.name

/-- The member path of a chain of pins below `above`. -/
def segments (above : Pin) : List Pin → String
  | [] => ""
  | pin :: rest => segment above pin ++ segments pin rest

end PinChain

namespace Graph

/-- The chain of `p`, if a root pin is at most `steps - 1` parents away. -/
def chainWithin (g : Graph) : Nat → PinId → Checked PinChain
  | 0, p => .error (.endlessParents p)
  | steps + 1, p => do
    let pin ← g.pin p
    match pin.parent with
    | none => return ⟨p, pin, []⟩
    | some parent =>
      let c ← g.chainWithin steps parent
      return { c with below := c.below ++ [pin] }

/-- The chain of a pin. A chain without repetition has at most as many pins as the graph. -/
def chain (g : Graph) (p : PinId) : Checked PinChain := g.chainWithin (g.pins.length + 1) p

/-- Whether a pin and all pins above it exist and end in a root pin of an existing node. -/
def pinResolves (g : Graph) (p : PinId) : Bool :=
  match g.chain p with
  | .ok c => (g.node? c.rootPin.node).isSome
  | .error _ => false

def rootPin (g : Graph) (p : PinId) : Checked PinId := do
  return (← g.chain p).root

/-- The path `Node.Pin.SubPin…` of a pin. -/
def pinPath (g : Graph) (p : PinId) : Checked String := do
  let c ← g.chain p
  let node ← g.node c.rootPin.node
  return c.below.foldl (fun path pin => path ++ "." ++ pin.name) (node.name ++ "." ++ c.rootPin.name)

/-- The path of a pin inside its root pin, such as `.Translation.X` or `[2]`; empty for root pins. -/
def propertySegments (g : Graph) (p : PinId) : Checked String := do
  let c ← g.chain p
  return PinChain.segments c.rootPin c.below

/-! ## Finding pins -/

/-- The first of the pins that has the given name. -/
def firstNamed (g : Graph) (name : String) (pins : List PinId) : Checked (Option PinId) :=
  pins.findM? fun p => return (← g.pin p).name = name

/-- The first root pin of a node with the given name. -/
def findPin (g : Graph) (n : NodeId) (name : String) : Checked (Option PinId) := do
  g.firstNamed name (← g.node n).pins

/-- Follows the names of sub-pins. -/
def descend (g : Graph) : PinId → List String → Checked (Option PinId)
  | p, [] => return some p
  | p, name :: names => do
    match ← g.firstNamed name (← g.pin p).subPins with
    | none => return none
    | some sub => g.descend sub names

/-- The pin with the path `Node.Pin.SubPin…`, where the first node of that name counts. -/
def findByPath (g : Graph) (path : String) : Checked (Option PinId) :=
  match (Text.pieces '.' path.toList).map String.ofList with
  | nodeName :: pinName :: names =>
    match g.nodes.findIdx? (·.name = nodeName) with
    | none => return none
    | some n => do
      match ← g.findPin n pinName with
      | none => return none
      | some p => g.descend p names
  | _ => return none

end Graph
end NodeGraph
