import NodeGraph.Bytecode.ArrayOp
import NodeGraph.Fault

/-!
# Node graphs

A graph holds its nodes and pins in two arenas, and everything refers to them by position. A pin
belongs to a node; a sub-pin addresses a member or an element of its parent pin. A graph read from
outside may refer to nodes and pins that do not exist, so there are two ways to look one up: `node?`
and `pin?` answer with an option, `node` and `pin` with a fault.
-/
namespace NodeGraph

/-! ## Pins -/

inductive PinDirection where
  | input
  | output
  | inOut
  /-- An input shown on the node but never linked. -/
  | visible
  /-- Written by the node itself and not shown. -/
  | hidden
deriving DecidableEq, Repr, Inhabited

namespace PinDirection

def all : List PinDirection := [input, output, inOut, visible, hidden]

def name : PinDirection → String
  | input => "Input"
  | output => "Output"
  | inOut => "IO"
  | visible => "Visible"
  | hidden => "Hidden"

/-- Whether values flow into the node through a pin of this direction. -/
def isInputSide : PinDirection → Bool
  | input | inOut | visible => true
  | output | hidden => false

end PinDirection

structure Pin where
  node : NodeId
  name : String
  direction : PinDirection
  typeName : String
  isArray : Bool := false
  defaultValue : String := ""
  /-- The pin this one is a member or an element of. -/
  parent : Option PinId := none
  subPins : List PinId := []
deriving DecidableEq, Repr, Inhabited

namespace Pin

def isExecute (p : Pin) : Bool := p.typeName = executeType

def isRoot (p : Pin) : Bool := p.parent.isNone

end Pin

/-- The shape of a pin before it has a place in a graph. -/
structure PinSpec where
  name : String
  direction : PinDirection
  typeName : String
  isArray : Bool := false
  defaultValue : String := ""
deriving DecidableEq, Repr

/-! ## Nodes -/

inductive NodeKind where
  /-- Calls a function of the catalog. -/
  | unit (function : String)
  /-- Calls a function of the catalog again and again until its `Continue` pin is false. -/
  | forLoop (function : String)
  | event (name : String)
  | branch
  | ifElse
  | select
  | array (op : ArrayOp)
  /-- Reads or writes a local or an external variable. -/
  | variableAccess (name : String) (isGetter : Bool)
  /-- An input or an output of the whole graph. -/
  | parameter (name : String) (isInput : Bool)
  | reroute
  | enum
  /-- A call site of a reusable function. -/
  | functionReference (function : String)
  /-- Provides the arguments inside a reusable function. -/
  | functionEntry
deriving DecidableEq, Repr, Inhabited

namespace NodeKind

def describe : NodeKind → String
  | unit function => "unit " ++ function
  | forLoop function => "for-loop " ++ function
  | event name => "event " ++ name
  | branch => "branch"
  | ifElse => "if"
  | select => "select"
  | array op => "array " ++ op.name
  | variableAccess name isGetter => "variable " ++ name ++ (if isGetter then " (get)" else " (set)")
  | parameter name _ => "parameter " ++ name
  | reroute => "reroute"
  | enum => "enum"
  | functionReference function => "call " ++ function
  | functionEntry => "function entry"

/-- Whether the value pins of such a node stand for a variable or a parameter. -/
def isStorage : NodeKind → Bool
  | variableAccess .. | parameter .. => true
  | _ => false

end NodeKind

structure Node where
  name : String
  kind : NodeKind
  pins : List PinId := []
  /-- How many arguments are bound to the hidden array pins. -/
  declaredArity : Option Nat := none
deriving DecidableEq, Repr, Inhabited

/-! ## Graphs -/

structure Graph where
  nodes : List Node := []
  pins : List Pin := []
deriving DecidableEq, Repr, Inhabited

namespace Graph

def node? (g : Graph) (n : NodeId) : Option Node := g.nodes[n]?

def pin? (g : Graph) (p : PinId) : Option Pin := g.pins[p]?

def node (g : Graph) (n : NodeId) : Checked Node := Checked.get .missingNode g.nodes n

def pin (g : Graph) (p : PinId) : Checked Pin := Checked.get .missingPin g.pins p

/-! ### Building -/

/-- Adds a node without pins. The new node's id is the number of nodes before. -/
def addNode (g : Graph) (name : String) (kind : NodeKind) : Graph × NodeId :=
  ({ g with nodes := g.nodes ++ [{ name, kind }] }, g.nodes.length)

def setDeclaredArity (g : Graph) (n : NodeId) (arity : Nat) : Checked Graph := do
  let node ← g.node n
  return { g with nodes := g.nodes.set n { node with declaredArity := some arity } }

/-- A pin of the given shape on `node`, below `parent`. -/
def newPin (node : NodeId) (parent : Option PinId) (spec : PinSpec) : Pin where
  node := node
  name := spec.name
  direction := spec.direction
  typeName := spec.typeName
  isArray := spec.isArray
  defaultValue := spec.defaultValue
  parent := parent

/-- Adds a root pin to a node. The new pin's id is the number of pins before. -/
def addPin (g : Graph) (n : NodeId) (spec : PinSpec) : Checked (Graph × PinId) := do
  let id := g.pins.length
  let node ← g.node n
  let nodes := g.nodes.set n { node with pins := node.pins ++ [id] }
  return ({ nodes, pins := g.pins ++ [newPin n none spec] }, id)

/-- Adds a sub-pin to a pin. It belongs to the parent's node. -/
def addSubPin (g : Graph) (parent : PinId) (spec : PinSpec) : Checked (Graph × PinId) := do
  let id := g.pins.length
  let above ← g.pin parent
  let pins := g.pins.set parent { above with subPins := above.subPins ++ [id] }
  return ({ g with pins := pins ++ [newPin above.node (some parent) spec] }, id)

end Graph

/-! ## Reusable functions -/

/-- A variable that every call site of a function has its own copy of. -/
structure LocalVariable where
  name : String
  typeName : String
  isArray : Bool := false
  defaultValue : String := ""
deriving DecidableEq, Repr, Inhabited

structure FunctionDefinition where
  name : String
  locals : List LocalVariable := []
deriving DecidableEq, Repr, Inhabited

def FunctionDefinition.local? (f : FunctionDefinition) (name : String) : Option LocalVariable :=
  f.locals.find? (·.name = name)

end NodeGraph
