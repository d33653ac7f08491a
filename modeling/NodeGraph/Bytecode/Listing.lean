import NodeGraph.Bytecode.Basic

/-!
# Listings

The text of bytecode: its entries, then one line per instruction with its address. The targets of jumps
are labelled `L0`, `L1`, … in ascending order; a target behind the last instruction has a label but no
line.
-/
namespace NodeGraph.Bytecode

/-- Puts a number into an ascending list without repetition. -/
def insertAscending (n : Nat) : List Nat → List Nat
  | [] => [n]
  | m :: rest => if n < m then n :: m :: rest else if n = m then m :: rest else m :: insertAscending n rest

/-- The targets of the jumps in a list of instructions from `address` on, in ascending order. -/
def targetsFrom (address : Nat) : List Instruction → List Nat
  | [] => []
  | i :: rest =>
    match i.jumpTarget? address with
    | some target => insertAscending target (targetsFrom (address + 1) rest)
    | none => targetsFrom (address + 1) rest

/-- The addresses that carry a label; the position of an address is the number of its label. -/
def labels (b : Bytecode) : List Nat := targetsFrom 0 b.instructions

/-- The label of an address among the labelled addresses. -/
def labelOf (labels : List Nat) (address : Nat) : Option String :=
  (labels.findIdx? (· = address)).map fun k => "L" ++ toString k

def instructionLine (labels : List Nat) (address : Nat) (i : Instruction) : String :=
  let label := match labelOf labels address with
    | some l => l ++ ":"
    | none => ""
  let target := match (i.jumpTarget? address).bind (labelOf labels) with
    | some l => " (to " ++ l ++ ")"
    | none => ""
  "    " ++ Text.padLeft 4 (toString address) ++ " " ++ Text.padLeft 4 label ++ "  " ++ i.describe ++
    target

def instructionLines (labels : List Nat) (address : Nat) : List Instruction → List String
  | [] => []
  | i :: rest => instructionLine labels address i :: instructionLines labels (address + 1) rest

def entryLines (b : Bytecode) : List String :=
  if b.entries.isEmpty then ["  entries: []"]
  else
    ["  entries: ["] ++ b.entries.toList.map (fun e => "    " ++ e.1 ++ " = " ++ toString e.2) ++
      ["  ]"]

def lines (b : Bytecode) : List String :=
  ["ByteCode \x7b"] ++ b.entryLines ++ ["  instructions:"] ++
    instructionLines b.labels 0 b.instructions ++ ["\x7d"]

def listing (b : Bytecode) : String := Text.joined "\n" b.lines

end NodeGraph.Bytecode
