import NodeGraph.Bytecode.ArrayOp
import NodeGraph.Bytecode.Operand
import NodeGraph.Fault
import NodeGraph.Text.Split

/-!
# Instructions

Jumps are relative and count instructions: a jump at address `a` with offset `d` continues at `a + d`
(forward and conditional jumps) or at `a - d` (backward jumps).
-/
namespace NodeGraph

inductive Instruction where
  /-- Calls a function of the catalog with the operands of its parameters. -/
  | execute (function : Nat) (operands : List Operand)
  | copy (source target : Operand)
  /-- Sets an operand to the zero value of its type. -/
  | zero (operand : Operand)
  /-- Adds one to an integer. -/
  | increment (operand : Operand)
  /-- Sets `result` to whether the other two are equal. -/
  | equals (lhs rhs result : Operand)
  | jumpForward (offset : Nat)
  | jumpBackward (offset : Nat)
  /-- Jumps forward if `condition` is `expected`. -/
  | jumpIf (condition : Operand) (offset : Nat) (expected : Bool)
  /-- Enters the body of a loop. -/
  | beginBlock (count index : Operand)
  | endBlock
  | array (op : ArrayOp) (operands : List Operand)
  /-- Ends the execution of an entry. -/
  | exit
deriving DecidableEq, Repr, Inhabited

namespace Instruction

def isJump : Instruction → Bool
  | jumpForward _ | jumpBackward _ | jumpIf .. => true
  | _ => false

/-- Where a jump at `address` goes; `none` for other instructions and for jumps to before the code. -/
def jumpTarget? (address : Nat) : Instruction → Option Nat
  | jumpForward offset | jumpIf _ offset _ => some (address + offset)
  | jumpBackward offset => if offset ≤ address then some (address - offset) else none
  | _ => none

/-- Where a jump at `address` goes, which must be an address. -/
def jumpTarget (address : Nat) (i : Instruction) : Checked (Option Nat) :=
  match i.jumpTarget? address with
  | some target => some <$> Checked.fit addressLimit target
  | none => return none

/-- The same jump with another offset; `none` for other instructions. -/
def withOffset? (offset : Nat) : Instruction → Option Instruction
  | jumpForward _ => some (jumpForward offset)
  | jumpBackward _ => some (jumpBackward offset)
  | jumpIf condition _ expected => some (jumpIf condition offset expected)
  | _ => none

def describeOperands (operands : List Operand) : String :=
  "(" ++ Text.joined ", " (operands.map Operand.describe) ++ ")"

def describe : Instruction → String
  | execute function operands => "Execute #" ++ toString function ++ describeOperands operands
  | copy source target => "Copy " ++ source.describe ++ " -> " ++ target.describe
  | zero operand => "Zero " ++ operand.describe
  | increment operand => "Increment " ++ operand.describe
  | equals lhs rhs result =>
    "Equals " ++ lhs.describe ++ " == " ++ rhs.describe ++ " -> " ++ result.describe
  | jumpForward offset => "JumpForward +" ++ toString offset
  | jumpBackward offset => "JumpBackward -" ++ toString offset
  | jumpIf condition offset expected =>
    "JumpIf " ++ condition.describe ++ " == " ++ toString expected ++ " +" ++ toString offset
  | beginBlock count index =>
    "BeginBlock count=" ++ count.describe ++ " index=" ++ index.describe
  | endBlock => "EndBlock"
  | array op operands => "Array" ++ op.name ++ describeOperands operands
  | exit => "Exit"

end Instruction
end NodeGraph
