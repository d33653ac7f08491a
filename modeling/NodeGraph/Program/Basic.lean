import NodeGraph.Bytecode.Basic
import NodeGraph.Memory

/-!
# Programs

What a compilation produces: bytecode, the memory tables its operands refer to, and the maps by which
tools find the storage of a pin and the mirrors of an operand.
-/
namespace NodeGraph

/-- A variable of the host, bound by its position. -/
structure ExternalVariable where
  name : String
  typeName : String
  isArray : Bool := false
deriving DecidableEq, Repr, Inhabited

structure Program where
  bytecode : Bytecode := {}
  literals : MemoryTable := { space := .literal }
  work : MemoryTable := { space := .work }
  debug : MemoryTable := { space := .debug }
  externals : List ExternalVariable := []
  /-- The mirrors of each watched operand. -/
  debugMirrors : SortedMap Operand (List Operand) := .empty
  /-- The operand of each pin, by path. -/
  pinPaths : SortedMap String Operand := .empty
deriving DecidableEq, Repr, Inhabited

namespace Program

/-- The table of a memory space; external variables have none. -/
def memory? (p : Program) : MemorySpace → Option MemoryTable
  | .literal => some p.literals
  | .work => some p.work
  | .debug => some p.debug
  | .external => none

def register? (p : Program) (o : Operand) : Option Register := do
  (← p.memory? o.memory).registers[o.index]?

/-- An operand with the name of what it stands for. -/
def describe (p : Program) (o : Operand) : String :=
  match p.memory? o.memory with
  | none =>
    match p.externals[o.index]? with
    | some bound => o.whole.describe ++ " " ++ bound.name
    | none => o.describe
  | some table =>
    let name := match table.registers[o.index]? with
      | some register => register.name
      | none => "?"
    let segments := match o.propertyPath.bind (table.propertyPaths[·]?) with
      | some path => path.segments
      | none => ""
    o.whole.describe ++ " " ++ name ++ segments

end Program
end NodeGraph
