import NodeGraph.Bytecode.Listing
import NodeGraph.Program.Basic

/-!
# Programs as text

The listing of the bytecode, followed by the registers of each memory space, the external variables and
the watches.
-/
namespace NodeGraph

/-- A line with the index right aligned before the text. -/
def indexedLine (index : Nat) (text : String) : String :=
  "  " ++ Text.padLeft 4 (toString index) ++ "  " ++ text

/-- One line per element, numbered from 0. -/
def indexedLines {α : Type} (f : α → String) (items : List α) : List String :=
  items.zipIdx.map fun (a, index) => indexedLine index (f a)

def Register.describe (r : Register) : String :=
  r.name ++ ": " ++ r.typeName ++ (if r.isArray then "[]" else "") ++ " = (" ++
    Text.joined ", " r.defaultValues ++ ")"

/-- The lines of the table of a memory space; none for an empty table. -/
def MemoryTable.lines (t : MemoryTable) (space : MemorySpace) : Checked (List String) := do
  if t.registers.isEmpty then return []
  else
    let bytes ← t.totalSize
    return s!"{space.name} ({bytes} bytes):" :: indexedLines Register.describe t.registers

namespace Program

def externalLines (p : Program) : List String :=
  if p.externals.isEmpty then []
  else "External:" :: indexedLines (fun x => x.name ++ ": " ++ x.typeName) p.externals

def watchLines (p : Program) : List String :=
  p.debugMirrors.toList.flatMap fun (live, mirrors) =>
    mirrors.map fun mirror => "watch " ++ p.describe live ++ " -> " ++ mirror.describe

/-- The lines behind the listing of the bytecode. -/
def tableLines (p : Program) : Checked (List String) := do
  return (← p.literals.lines .literal) ++ (← p.work.lines .work) ++ (← p.debug.lines .debug) ++
    p.externalLines ++ p.watchLines

/-- The whole program as text. -/
def disassembly (p : Program) : Checked String := do
  let lines := p.bytecode.listing :: (← p.tableLines)
  return Text.joined "" (lines.map (· ++ "\n"))

end Program
end NodeGraph
