import NodeGraph.Command.Basic

/-!
# The program

Reads the document, runs the command and writes what comes of it.
-/
namespace NodeGraph.Command

/-- The text of a file, if it can be read. -/
def readText (path : String) : IO (Option String) := do
  try return some (← IO.FS.readFile path) catch _ => return none

/-- Writes a file, and tells whether that was possible. -/
def writeBytes (path : String) (bytes : List UInt8) : IO Bool := do
  try
    IO.FS.writeBinFile path ⟨bytes.toArray⟩
    return true
  catch _ => return false

/-- Performs what a call of the command leads to, and gives the exit status. -/
def Outcome.perform (o : Outcome) : IO Nat := do
  (← IO.getStdout).write ⟨o.stdout.toArray⟩
  (← IO.getStderr).putStr o.messages
  match o.file with
  | none => return o.status
  | some (path, bytes) => if ← writeBytes path bytes then return o.status else return failure

end NodeGraph.Command

open NodeGraph.Command in
def main (args : List String) : IO UInt32 := do
  match Invocation.parse? args with
  | none =>
    (← IO.getStderr).putStrLn "usage: [FLAGS] DOCUMENT"
    return misuse.toUInt32
  | some inv => return (← (inv.run (← readText inv.document)).perform).toUInt32
