import NodeGraph.Diagnostic.Basic
import NodeGraph.Environment
import NodeGraph.Sharing
import NodeGraph.Tree.Search
import NodeGraph.Tree.Variables

/-!
# Lowering

A tree is walked twice in the same way. The setup pass gives every value its storage, the emit pass
writes the instructions. What both passes share is the state of one compilation. An expression that
cannot be lowered is marked and skipped, and the walk goes on with the rest of the tree; so a `Step` of
the walk always has a result, while an `Attempt` to lower one expression may end in a `LowerError`.
-/
namespace NodeGraph.Lowering

inductive Pass where
  /-- Gives storage to operands. Nothing is emitted. -/
  | setup
  /-- Emits instructions for the operands that have storage. -/
  | emit
deriving DecidableEq, Repr

/-! ## Errors -/

/-- Why an expression cannot be lowered. -/
inductive LowerError where
  /-- A register cannot be made from the type and the default text of a pin or a local. -/
  | type (pin : Option PinId) (what : String) (cause : TypeError)
  | missingPin (node pin : String)
  | unknownFunction (name : String)
  | notCallable (name : String)
  | unmappedVariable (name : String)
  | unknownExternal (name : String)
  | externalSubPin (path : String)
  | noStorage (space : MemorySpace)
  | missingProxy
  | notAValue
  /-- Something the expression needs failed, and was reported. -/
  | dependencyFailed
deriving DecidableEq, Repr

namespace LowerError

def message : LowerError → String
  | type _ what cause => "'" ++ what ++ "': " ++ cause.message
  | missingPin node pin => "'" ++ node ++ "' has no pin named '" ++ pin ++ "'"
  | unknownFunction name => "function '" ++ name ++ "' is not in the catalog"
  | notCallable name => "'" ++ name ++ "' cannot be lowered as a function call"
  | unmappedVariable name =>
    "'" ++ name ++ "' is neither a local variable of an enclosing function nor an external variable"
  | unknownExternal name => "external variable '" ++ name ++ "' is not bound"
  | externalSubPin path => "'" ++ path ++ "' addresses part of an external variable"
  | noStorage space => space.name ++ " memory has no registers"
  | missingProxy => "expression does not refer to a pin"
  | notAValue => "expression does not hold a value"
  | dependencyFailed => "a dependency failed to lower"

/-- What the report of an error is about when it stopped the lowering of `e`. -/
def subject (e : ExprId) : LowerError → Subject
  | type (some pin) .. => .pin pin
  | _ => .expression e

def isReported : LowerError → Bool
  | dependencyFailed => false
  | _ => true

end LowerError

/-! ## State -/

/-- The default texts that a call site gives to the arguments of its function. -/
structure ArgumentFrame where
  callSite : NodeId
  defaults : List (String × String)
deriving DecidableEq, Repr

/-- The memory tables under construction. Every register is made under a key, and asking for the same
key again gives the same operand. -/
structure Storage where
  literals : MemoryTable := { space := .literal }
  work : MemoryTable := { space := .work }
  debug : MemoryTable := { space := .debug }
  keyed : List (String × Operand) := []
deriving DecidableEq, Repr

/-- The addresses `start ≤ a < stop` of the code of an expression, with that of the expressions lowered
on its behalf. -/
structure Span where
  expr : ExprId
  start : Nat
  stop : Nat
deriving DecidableEq, Repr

/-- The addresses `start ≤ a < stop` of the code that sets the locals of a call site. -/
structure Initialization where
  callSite : CallStack
  start : Nat
  stop : Nat
deriving DecidableEq, Repr

structure State where
  storage : Storage := {}
  code : Bytecode := {}
  openBlocks : Nat := 0
  report : Report := {}
  /-- The expressions met in this pass. -/
  visited : List ExprId := []
  /-- Where the code of the expressions lowered in this pass is, the one finished last first. -/
  spans : List Span := []
  /-- The expressions that cannot be lowered. -/
  failed : List ExprId := []
  /-- The operands of the value expressions resolved so far. -/
  operands : List (ExprId × Operand) := []
  pinPaths : SortedMap String Operand := .empty
  mirrors : SortedMap Operand (List Operand) := .empty
  /-- The call sites whose locals have registers. -/
  prepared : List CallStack := []
  /-- The call sites whose locals are set by emitted code. -/
  initialized : List CallStack := []
  /-- Where the locals of call sites are set, those set last first. -/
  initializers : List Initialization := []
  /-- One frame for each call site around the expression lowered last. -/
  frames : List ArgumentFrame := []
  /-- The call stack of the expression being lowered. -/
  callStack : CallStack := []
deriving DecidableEq, Repr

/-- What stays the same during a pass. -/
structure Context where
  tree : Tree
  env : Environment
  options : CompileOptions
  sharing : Sharing
  pass : Pass
deriving Repr

abbrev Step := StateT State Checked

abbrev Attempt := ExceptT LowerError Step

/-! ## Reports -/

def reportError (subject : Subject) (message : String) : Step Unit :=
  modify fun s => { s with report := s.report.error subject message }

def Context.reportWarning (cx : Context) (subject : Subject) (message : String) : Step Unit :=
  modify fun s => { s with report := s.report.warning cx.options subject message }

/-- Marks an expression as failed, and reports the error unless its cause was reported. -/
def fail (e : ExprId) (error : LowerError) : Step Unit := do
  modify fun s => { s with failed := e :: s.failed }
  if error.isReported then reportError (error.subject e) error.message

/-! ## Emission -/

/-- The number of open blocks after an instruction. -/
def blocksAfter (openBlocks : Nat) : Instruction → Checked Nat
  | .beginBlock .. => return openBlocks + 1
  | .endBlock => if openBlocks = 0 then throw .unmatchedEndBlock else return openBlocks - 1
  | _ => return openBlocks

/-- Appends an instruction that belongs to a call stack. -/
def Context.emitUnder (cx : Context) (stack : CallStack) (i : Instruction) : Step Unit := do
  match cx.pass with
  | .setup => throw Fault.emittedDuringSetup
  | .emit =>
    let s ← get
    let openBlocks ← blocksAfter s.openBlocks i
    let recorded := if cx.options.recordCallStacks then some stack else none
    set { s with code := s.code.push i recorded, openBlocks := openBlocks }

/-- Appends an instruction that belongs to the current call stack. -/
def Context.emit (cx : Context) (i : Instruction) : Step Unit := do
  cx.emitUnder (← get).callStack i

/-- The address of the next instruction. -/
def here : Step Nat := return (← get).code.size

/-- Appends a jump without a destination and gives its address. -/
def Context.reserve (cx : Context) (jump : Instruction) : Step Nat := do
  let address ← here
  cx.emit jump
  return address

/-- Lets the jump at an address go to the next instruction. -/
def land (address : Nat) : Step Unit := do
  let s ← get
  let code ← s.code.setOffset address (s.code.size - address)
  set { s with code := code }

end NodeGraph.Lowering
