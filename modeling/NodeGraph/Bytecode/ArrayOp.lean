import NodeGraph.Graph.PinName

/-!
# Array operations

The operations on arrays, with the pins each reads and writes in operand order.
-/
namespace NodeGraph

inductive ArrayOp where
  | reset
  | getNum
  | setNum
  | getAtIndex
  | setAtIndex
  | add
  | insert
  | remove
  | find
  | append
  | clone
  | iterate
  | union
  | difference
  | intersection
  | reverse
deriving DecidableEq, Repr, Inhabited

namespace ArrayOp

def all : List ArrayOp :=
  [reset, getNum, setNum, getAtIndex, setAtIndex, add, insert, remove, find, append, clone, iterate,
    union, difference, intersection, reverse]

def name : ArrayOp → String
  | reset => "Reset"
  | getNum => "GetNum"
  | setNum => "SetNum"
  | getAtIndex => "GetAtIndex"
  | setAtIndex => "SetAtIndex"
  | add => "Add"
  | insert => "Insert"
  | remove => "Remove"
  | find => "Find"
  | append => "Append"
  | clone => "Clone"
  | iterate => "Iterate"
  | union => "Union"
  | difference => "Difference"
  | intersection => "Intersection"
  | reverse => "Reverse"

/-- The pins of an operation, in operand order. -/
def pinNames : ArrayOp → List String
  | reset | reverse => [PinName.array]
  | getNum | setNum => [PinName.array, PinName.num]
  | getAtIndex | setAtIndex => [PinName.array, PinName.index, PinName.element]
  | add => [PinName.array, PinName.element, PinName.index]
  | insert => [PinName.array, PinName.index, PinName.element]
  | remove => [PinName.array, PinName.index]
  | find => [PinName.array, PinName.element, PinName.index, PinName.success]
  | append | union | difference | intersection => [PinName.array, PinName.other]
  | clone => [PinName.array, PinName.clone]
  | iterate =>
    [PinName.array, PinName.element, PinName.index, PinName.count, PinName.ratio, PinName.proceed]

def arity (op : ArrayOp) : Nat := op.pinNames.length

end ArrayOp
end NodeGraph
