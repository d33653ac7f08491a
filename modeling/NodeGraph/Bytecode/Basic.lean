import NodeGraph.Bytecode.Instruction
import NodeGraph.Fault
import NodeGraph.Proxy
import NodeGraph.SortedMap

/-!
# Bytecode

A sequence of instructions with named entry points. If call stacks are recorded, there is one for each
instruction.
-/
namespace NodeGraph

structure Bytecode where
  instructions : List Instruction := []
  /-- The address of the first instruction of each entry. -/
  entries : SortedMap String Nat := .empty
  /-- The call stack each instruction was emitted under, if they are recorded. -/
  callStacks : List CallStack := []
deriving DecidableEq, Repr, Inhabited

namespace Bytecode

def size (b : Bytecode) : Nat := b.instructions.length

def isEmpty (b : Bytecode) : Bool := b.instructions.isEmpty

/-- Appends an instruction and, if given, the call stack it belongs to. -/
def push (b : Bytecode) (i : Instruction) (stack : Option CallStack) : Bytecode :=
  { b with instructions := b.instructions ++ [i], callStacks := b.callStacks ++ stack.toList }

/-- Sets the offset of the jump at an address. -/
def setOffset (b : Bytecode) (address offset : Nat) : Checked Bytecode :=
  match b.instructions[address]?.bind (Instruction.withOffset? offset) with
  | some jump => return { b with instructions := b.instructions.set address jump }
  | none => throw (.notAJump address)

def addEntry (b : Bytecode) (name : String) (address : Nat) : Bytecode :=
  { b with entries := b.entries.insert name address }

/-- Whether an instruction was recorded under a call stack or inside it. -/
def hasInstructionsWithin (b : Bytecode) (stack : CallStack) : Bool :=
  b.callStacks.any stack.isPrefixOf

end Bytecode
end NodeGraph
