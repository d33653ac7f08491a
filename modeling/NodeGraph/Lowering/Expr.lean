import NodeGraph.Lowering.Control

/-!
# Lowering expressions

Every expression is lowered at most once in a pass, however often it is met. So a walk that is nested
deeper than there are expressions does not occur, and the depth of the walk bounds its recursion.
-/
namespace NodeGraph.Lowering

/-! ## Kinds of expressions -/

/-- An entry is named by its event. Its code ends in an exit. -/
def Context.lowerEntry (cx : Context) (lower : ExprId → Step Unit) (e : ExprId) : Step Unit := do
  let x ← cx.tree.expr e
  match cx.pass with
  | .setup => cx.lowerChildren lower e
  | .emit =>
    let name := match ← cx.tree.nodeKindOf e with
      | some (.event name) => name
      | _ => x.name
    modify fun s => { s with code := s.code.addEntry name s.code.size }
    cx.lowerChildren lower e
    match ← x.children.findM? (m := Checked) fun c => return (← cx.tree.kind c) = .exit with
    | some _ => return ()
    | none => cx.emit .exit

/-- A value gets storage, unless it is that of an execution pin. -/
def Context.lowerValue (cx : Context) (lower : ExprId → Step Unit) (e : ExprId) : Attempt Unit := do
  cx.lowerChildren lower e
  match cx.pass with
  | .emit => return ()
  | .setup =>
    if (← cx.tree.pinOf e).any Pin.isExecute then return ()
    else
      let operand ← cx.operandOf e
      if (← cx.tree.kind e) = .var then cx.watch e operand

/-- The operand that a transfer reads: that of its first child with a value, or else that of its
source pin. -/
def Context.transferSource (cx : Context) (x : Expression) (source : Proxy) : Attempt Operand := do
  let holdsValue := fun c : ExprId => do
    let kind ← cx.tree.kind c
    return kind.isValue || kind = .cachedValue
  match ← x.children.findM? (m := Checked) holdsValue with
  | some child => cx.operandOf child
  | none => cx.valueOperand source

/-- Whether a proxy refers to an execution pin. -/
def isExecutePin (g : Graph) (p : Proxy) : Checked Bool :=
  match p.pin? with
  | none => return false
  | some id => return (← g.pin id).isExecute

/-- A transfer copies the value of its source into its target pin, unless they share storage. -/
def Context.lowerTransfer (cx : Context) (lower : ExprId → Step Unit) (e : ExprId) :
    Attempt Unit := do
  cx.lowerChildren lower e
  let x ← cx.tree.expr e
  match x.source, x.proxy with
  | some source, some target =>
    if ← isExecutePin cx.tree.graph source then return ()
    else
      let read ← cx.transferSource x source
      let written ← cx.valueOperand target
      match cx.pass with
      | .setup => return ()
      | .emit => cx.copyValue read written
  | _, _ => throw .missingProxy

/-- A call of a function of the catalog. -/
def Context.lowerCall (cx : Context) (lower : ExprId → Step Unit) (e : ExprId) : Attempt Unit := do
  match ← cx.tree.nodeKindOf e with
  | some (.unit function) =>
    cx.lowerChildren lower e
    let (number, operands) ← cx.callOperands e function
    match cx.pass with
    | .setup => return ()
    | .emit => cx.emit (.execute number operands)
  | some (.forLoop function) => cx.lowerForLoop lower e function
  | _ => throw (.notCallable (← cx.tree.expr e).name)

/-- An array operation on the pins it names. -/
def Context.lowerArray (cx : Context) (lower : ExprId → Step Unit) (e : ExprId) : Attempt Unit := do
  match ← cx.tree.nodeKindOf e with
  | some (.array .iterate) => cx.lowerIterate lower e
  | some (.array op) =>
    cx.lowerChildren lower e
    let operands ← op.pinNames.mapM (cx.pinOperand e)
    match cx.pass with
    | .setup => return ()
    | .emit => cx.emit (.array op operands)
  | _ => throw (.notCallable (← cx.tree.expr e).name)

/-- Lowers an expression by its kind. -/
def Context.lowerExpr (cx : Context) (lower : ExprId → Step Unit) (e : ExprId) : Attempt Unit := do
  match ← cx.tree.kind e with
  | .block | .noOp => cx.lowerChildren lower e
  | .entry => cx.lowerEntry lower e
  | .call => cx.lowerCall lower e
  | .var | .literal | .externalVar => cx.lowerValue lower e
  | .assign | .copy => cx.lowerTransfer lower e
  | .cachedValue =>
    cx.lowerChildren lower e
    let _ ← cx.operandOf e
  | .exit =>
    match cx.pass with
    | .setup => return ()
    | .emit => cx.emit .exit
  | .branch => cx.lowerBranch lower e
  | .ifElse => cx.lowerIf lower e
  | .select => cx.lowerSelect lower e
  | .array => cx.lowerArray lower e

/-! ## The walk -/

/-- Lowers an expression under the call stack it is seen through. An expression without a proxy is
seen through that of the expression around it. -/
def Context.lowerUnder (cx : Context) (lower : ExprId → Step Unit) (e : ExprId) : Step Unit := do
  let outer := (← get).callStack
  let stack := ((← cx.tree.expr e).proxy.map Proxy.callStack).getD outer
  cx.enterFrames stack
  cx.initializeLocals stack
  modify fun s => { s with callStack := stack }
  match ← (cx.lowerExpr lower e).run with
  | .ok () => pure ()
  | .error error => fail e error
  modify fun s => { s with callStack := outer }

/-- Notes that the code of an expression reaches from `start` to the next instruction. -/
def recordSpan (e : ExprId) (start : Nat) : Step Unit :=
  modify fun s => { s with spans := ⟨e, start, s.code.size⟩ :: s.spans }

/-- Lowers an expression, unless it failed or was met in this pass, and notes where its code is. -/
def Context.lowerOnce (cx : Context) (lower : ExprId → Step Unit) (e : ExprId) : Step Unit := do
  let s ← get
  if e ∈ s.failed ∨ e ∈ s.visited then return ()
  else
    set { s with visited := e :: s.visited }
    cx.lowerUnder lower e
    recordSpan e s.code.size

/-- Lowers an expression, less than `depth` expressions deep. -/
def Context.lowerWithin (cx : Context) : Nat → ExprId → Step Unit
  | 0, e => throw (Fault.endlessNesting e)
  | depth + 1, e => cx.lowerOnce (cx.lowerWithin depth) e

def Context.lower (cx : Context) (e : ExprId) : Step Unit :=
  cx.lowerWithin (cx.tree.exprs.length + 1) e

/-- One pass over all roots. -/
def Context.lowerRoots (cx : Context) : Step Unit := do
  modify fun s => { s with visited := [], spans := [], frames := [], callStack := [] }
  cx.tree.roots.forM cx.lower

end NodeGraph.Lowering
