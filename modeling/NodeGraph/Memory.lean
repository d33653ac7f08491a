import NodeGraph.Bytecode.Operand
import NodeGraph.Fault
import NodeGraph.Types.Basic

/-!
# Memory tables

The registers of a memory space, in order of allocation, and the property paths through which operands
address members of them. Property paths are interned: one entry per register and path.
-/
namespace NodeGraph

structure Register where
  name : String
  typeName : String
  elementCount : Nat
  isArray : Bool
  /-- Whether the number of elements may change while the program runs. -/
  isDynamic : Bool
  /-- The initial values, one text per element. -/
  defaultValues : List String
  /-- The size of one element. -/
  size : Nat
  alignment : Nat
deriving DecidableEq, Repr, Inhabited

structure PropertyPath where
  register : Nat
  segments : String
deriving DecidableEq, Repr, Inhabited

structure MemoryTable where
  space : MemorySpace
  registers : List Register := []
  propertyPaths : List PropertyPath := []
deriving DecidableEq, Repr, Inhabited

namespace MemoryTable

/-- The number of the register of that name. -/
def find? (t : MemoryTable) (name : String) : Option Nat := t.registers.findIdx? (·.name = name)

/-- Adds a register. Its number is the number of registers before. -/
def addRegister (t : MemoryTable) (r : Register) : MemoryTable × Nat :=
  ({ t with registers := t.registers ++ [r] }, t.registers.length)

/-- The number of a property path, which is added if it is not there. -/
def internPath (t : MemoryTable) (register : Nat) (segments : String) : MemoryTable × Nat :=
  let path : PropertyPath := ⟨register, segments⟩
  match t.propertyPaths.findIdx? (· = path) with
  | some k => (t, k)
  | none => ({ t with propertyPaths := t.propertyPaths ++ [path] }, t.propertyPaths.length)

/-- The size of the registers from `offset` on, each placed at a multiple of its alignment. -/
def sizeFrom (offset : Nat) : List Register → Checked Nat
  | [] => return offset
  | r :: rest => do
    let start ← Checked.fit addressLimit (TypeRegistry.alignUp offset (max r.alignment 1))
    let stop ← Checked.fit addressLimit (start + r.size * r.elementCount)
    sizeFrom stop rest

/-- The bytes that the registers of a table take up. -/
def totalSize (t : MemoryTable) : Checked Nat := sizeFrom 0 t.registers

end MemoryTable
end NodeGraph
