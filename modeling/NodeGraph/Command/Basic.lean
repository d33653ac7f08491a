import NodeGraph.Command.Arguments
import NodeGraph.Diagnostic.Render
import NodeGraph.Document.Json
import NodeGraph.Program.Bytes
import NodeGraph.Program.Listing
import NodeGraph.Tree.Outline

/-!
# The command

What the compiler does when it is called from a command line, up to the reading and writing of files:
from the text of the document to what is printed, what is written to a file and the exit status.
-/
namespace NodeGraph.Command

/-! ## Exit statuses -/

/-- The document cannot be read, is not valid or has errors, or the file cannot be written. -/
def failure : Nat := 1

/-- The command line is wrong. -/
def misuse : Nat := 2

/-- The compiler met a fault. -/
def crash : Nat := 101

/-! ## Running -/

/-- What a call of the command leads to. -/
structure Outcome where
  stdout : List UInt8 := []
  /-- Messages for the user, on the error channel. -/
  messages : String := ""
  /-- The path of a file and its contents. -/
  file : Option (String × List UInt8) := none
  status : Nat := 0
deriving DecidableEq, Repr

def utf8 (text : String) : List UInt8 := text.toUTF8.data.toList

/-- The options of a document, changed by flags. -/
def Invocation.options (inv : Invocation) (d : Document) : CompileOptions :=
  let stored := d.options.getD {}
  { stored with
    watchedPins := stored.watchedPins ++ inv.watches
    enablePinWatches := stored.enablePinWatches && !inv.noWatches
    suppressInfo := stored.suppressInfo && !inv.showInfo
    suppressWarnings := stored.suppressWarnings || inv.hideWarnings }

/-- The program in a format. -/
def Format.encode (p : Program) : Format → Checked (List UInt8)
  | disasm => return utf8 (← p.disassembly)
  | json => return utf8 (p.toJson.pretty ++ "\n")
  | bin => return p.toBytes

/-- The program to write and the number of errors in it, with the report of the compilation. -/
def Invocation.compile (inv : Invocation) (d : Document) (env : Environment) :
    Checked (Compilation (Program × Nat)) := do
  if inv.keepPartial then d.tree.compilePartial env (inv.options d)
  else
    let c ← d.tree.compile env (inv.options d)
    return { result := c.result.map (·, 0), report := c.report }

/-- A program with errors in it is delivered, and is a failure all the same. -/
def Outcome.settle (o : Outcome) (errors : Nat) : Outcome :=
  if errors = 0 then o
  else
    { o with messages := o.messages ++ s!"{errors} node(s) failed to compile\n", status := failure }

/-- Adds the encoded program to the outcome, as output or as a file. -/
def Invocation.deliver (inv : Invocation) (before : Outcome) (bytes : List UInt8) (errors : Nat) :
    Outcome :=
  match inv.output with
  | some path => { before with file := some (path, bytes) }.settle errors
  | none => { before with stdout := before.stdout ++ bytes }.settle errors

/-- Compiles a document, after what was printed before. -/
def Invocation.compileAfter (inv : Invocation) (before : Outcome) (d : Document) : Outcome :=
  match d.environment.run with
  | .error _ => { before with status := crash }
  | .ok (.error error) =>
    { before with
      messages := before.messages ++ Document.typeErrorMessage error ++ "\n", status := failure }
  | .ok (.ok env) =>
    match inv.compile d env with
    | .error _ => { before with status := crash }
    | .ok c =>
      let rendered := Diagnostic.renderAll d.tree true c.report.diagnostics
      let before := { before with messages := before.messages ++ rendered }
      match c.result with
      | .error error =>
        { before with messages := before.messages ++ error.message ++ "\n", status := failure }
      | .ok (program, errors) =>
        match inv.format.encode program with
        | .error _ => { before with status := crash }
        | .ok bytes => inv.deliver before bytes errors

/-- Runs the command on the text of its document, which is `none` if it cannot be read. -/
def Invocation.run (inv : Invocation) (text : Option String) : Outcome :=
  match text.bind Document.ofText? with
  | none => { messages := "invalid graph document: " ++ inv.document ++ "\n", status := failure }
  | some d =>
    if inv.dumpTree then
      let header := utf8 "=== Expression Tree ===\n"
      match d.tree.outline with
      | .error _ => { stdout := header, status := crash }
      | .ok text => inv.compileAfter { stdout := header ++ utf8 (text ++ "\n") } d
    else inv.compileAfter {} d

end NodeGraph.Command
