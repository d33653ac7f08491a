import NodeGraph.CompileOptions
import NodeGraph.Tree.Basic

/-!
# Diagnostics

Messages about a tree and its parts. A report collects them in order; the options may keep warnings and
information out of it, but every error enters it and is counted.
-/
namespace NodeGraph

inductive Severity where
  | error
  | warning
  | info
deriving DecidableEq, Repr, Inhabited

def Severity.name : Severity → String
  | error => "error"
  | warning => "warning"
  | info => "info"

/-- What a message is about. -/
inductive Subject where
  | tree
  | expression (id : ExprId)
  | node (id : NodeId)
  | pin (id : PinId)
deriving DecidableEq, Repr, Inhabited

/-- The name of a subject, or its number if it has none. -/
def Subject.describe (t : Tree) : Subject → String
  | tree => "graph"
  | expression id =>
    match t.expr? id with
    | some x => x.kind.label ++ " '" ++ x.name ++ "'"
    | none => "expression #" ++ toString id
  | node id =>
    match t.graph.node? id with
    | some n => "node '" ++ n.name ++ "'"
    | none => "node #" ++ toString id
  | pin id =>
    match t.graph.pinPath id with
    | .ok path => "pin '" ++ path ++ "'"
    | .error _ => "pin #" ++ toString id

structure Diagnostic where
  severity : Severity
  subject : Subject
  message : String
deriving DecidableEq, Repr, Inhabited

/-- The messages delivered so far and the number of errors among them. -/
structure Report where
  diagnostics : List Diagnostic := []
  errors : Nat := 0
deriving DecidableEq, Repr, Inhabited

namespace Report

def deliver (r : Report) (severity : Severity) (subject : Subject) (message : String) : Report :=
  { r with diagnostics := r.diagnostics ++ [⟨severity, subject, message⟩] }

def error (r : Report) (subject : Subject) (message : String) : Report :=
  { r.deliver .error subject message with errors := r.errors + 1 }

def warning (options : CompileOptions) (r : Report) (subject : Subject) (message : String) : Report :=
  if options.suppressWarnings then r else r.deliver .warning subject message

def info (options : CompileOptions) (r : Report) (subject : Subject) (message : String) : Report :=
  if options.suppressInfo then r else r.deliver .info subject message

end Report
end NodeGraph
