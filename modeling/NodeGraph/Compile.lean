import NodeGraph.Lowering.Expr
import NodeGraph.Validation.Basic

/-!
# Compilation

A tree is validated and, if nothing is wrong with it, lowered in two passes. A partial compilation
gives the program also if some expressions could not be lowered; they are missing from it.
-/
namespace NodeGraph

inductive CompileError where
  /-- The tree failed validation. -/
  | invalidGraph (errors : Nat)
  /-- Some expressions could not be lowered. -/
  | failed (errors : Nat)
deriving DecidableEq, Repr

namespace CompileError

def errors : CompileError → Nat
  | invalidGraph n | failed n => n

def message : CompileError → String
  | invalidGraph n => s!"graph failed validation with {n} error(s)"
  | failed n => s!"compilation failed with {n} error(s)"

end CompileError

/-- A result, and what was reported on the way to it. -/
structure Compilation (α : Type) where
  result : Except CompileError α
  report : Report

/-- The report of a list of issues, all of them errors. -/
def Report.ofIssues (issues : List Issue) : Report :=
  issues.foldl (fun r i => r.error i.subject i.message) {}

namespace Lowering

/-- Warns of watched pins that do not exist. -/
def Context.checkWatches (cx : Context) : Step Unit :=
  cx.options.watchedPins.forM fun path => do
    match ← cx.tree.graph.findByPath (barePath path) with
    | some _ => return ()
    | none => cx.reportWarning .tree ("watched pin '" ++ path ++ "' does not exist")

/-- Lowers a tree: all storage first, then all code. -/
def lowerTree (cx : Pass → Context) : Step Unit := do
  (cx .setup).checkWatches
  (cx .setup).lowerRoots
  (cx .emit).lowerRoots

/-- The program of a finished state. -/
def State.program (s : State) (externals : List ExternalVariable) : Program where
  bytecode := s.code
  literals := s.storage.literals
  work := s.storage.work
  debug := s.storage.debug
  externals := externals
  debugMirrors := s.mirrors
  pinPaths := s.pinPaths

def State.summary (s : State) : String :=
  s!"{s.code.size} instructions, {s.storage.literals.registers.length} literal, " ++
    s!"{s.storage.work.registers.length} work and {s.storage.debug.registers.length} debug registers"

end Lowering

namespace Tree

/-- The state in which the lowering of a tree ends, when pins share storage as given. -/
def loweredWith (t : Tree) (env : Environment) (options : CompileOptions) (sharing : Sharing) :
    Checked Lowering.State := do
  let (_, s) ← Lowering.lowerTree (fun pass => ⟨t, env, options, sharing, pass⟩) {}
  if s.openBlocks = 0 then return s else throw (.openBlocks s.openBlocks)

/-- The state in which the lowering of a tree ends, when linked pins share storage. -/
def lowered (t : Tree) (env : Environment) (options : CompileOptions) : Checked Lowering.State := do
  t.loweredWith env options (← Sharing.ofTree t)

/-- Compiles a tree to a program and the number of errors that lowering met. -/
def compilePartial (t : Tree) (env : Environment) (options : CompileOptions) :
    Checked (Compilation (Program × Nat)) := do
  let validated := Report.ofIssues (← t.issues env)
  if validated.errors > 0 then
    return { result := .error (.invalidGraph validated.errors), report := validated }
  else
    let s ← t.lowered env options
    return {
      result := .ok (s.program env.externals, s.report.errors)
      report := s.report.info options .tree s.summary }

/-- Compiles a tree to a program, and fails if any error was met. -/
def compile (t : Tree) (env : Environment) (options : CompileOptions) :
    Checked (Compilation Program) := do
  let c ← t.compilePartial env options
  let result := match c.result with
    | .ok (p, 0) => .ok p
    | .ok (_, errors) => .error (.failed errors)
    | .error error => .error error
  return { result, report := c.report }

end Tree
end NodeGraph
