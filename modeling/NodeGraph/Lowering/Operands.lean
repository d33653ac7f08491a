import NodeGraph.Lowering.Locals

/-!
# Operands of expressions

Where the value of a pin lives. Linked pins share the register of the least of them, unless one of
them stands for a variable or a parameter: then its storage is theirs. A sub-pin addresses a member of
its root pin's register.
-/
namespace NodeGraph.Lowering

/-! ## Pins -/

/-- Whether a pin's storage is a variable or a parameter. -/
def isVariablePin (g : Graph) (p : Proxy) : Checked Bool := do
  match p.pin? with
  | none => return false
  | some id =>
    let pin ← g.pin id
    if pin.isExecute then return false
    else return (← g.node pin.node).kind.isStorage

/-- The default text of a pin. Inside a function, the argument pins take those of the call site. -/
def defaultText (frames : List ArgumentFrame) (stack : CallStack) (node : Node) (pin : Pin) : String :=
  match node.kind with
  | .functionEntry =>
    match stack.innermost.bind (argumentDefault frames · pin.name) with
    | some text => text
    | none => pin.defaultValue
  | _ => pin.defaultValue

/-- The shape of the register of a pin. -/
def pinSpec (g : Graph) (frames : List ArgumentFrame) (p : Proxy) : Checked RegisterSpec := do
  match p.pin? with
  | none => return { typeName := "" }
  | some id =>
    let pin ← g.pin id
    let node ← g.node pin.node
    return {
      typeName := pin.typeName
      isArray := pin.isArray
      defaultText := defaultText frames p.callStack node pin
      fixedCount := if pin.direction = .hidden && pin.isArray then node.declaredArity else none
      pin := some id }

/-- The register of a key with the shape of a pin. -/
def Context.allocateFor (cx : Context) (key : String) (space : MemorySpace) (p : Proxy) :
    Attempt Operand := do
  cx.allocate key space (← pinSpec cx.tree.graph (← get).frames p)

/-- The storage of a pin of a variable or a parameter node. -/
def Context.variableOperand (cx : Context) (p : Proxy) : Attempt Operand := do
  let g := cx.tree.graph
  match p.pin? with
  | none => throw .missingProxy
  | some id =>
    match (← g.node (← g.pin id).node).kind with
    | .parameter name _ => cx.allocateFor ("Parameter::" ++ name) .work p
    | .variableAccess name _ =>
      match ← cx.tree.findLocal p.callStack name with
      | some access => cx.localOperand access.callSite access.function.name access.declaration
      | none =>
        match cx.env.externalIndex? name with
        | some index => return { memory := .external, index }
        | none => throw (.unmappedVariable name)
    | _ => throw .notAValue

/-- The storage of the value of a root pin. -/
def Context.rootOperand (cx : Context) (p : Proxy) : Attempt Operand := do
  let g := cx.tree.graph
  match ← (cx.sharing.group p).findM? (m := Checked) (isVariablePin g) with
  | some member => cx.variableOperand member
  | none =>
    let least := cx.sharing.representative p
    cx.allocateFor (← least.path g) .work least

/-- The storage of the value of a pin. -/
def Context.valueOperand (cx : Context) (p : Proxy) : Attempt Operand := do
  let g := cx.tree.graph
  match p.pin? with
  | none => throw .missingProxy
  | some id =>
    if (← g.pin id).isRoot then cx.rootOperand p
    else
      let base ← cx.rootOperand (p.withPin (← g.rootPin id))
      match (← get).storage.addPath base (← g.propertySegments id) with
      | none => throw (.externalSubPin (← p.path g))
      | some (storage, operand) =>
        modify fun s => { s with storage := storage }
        return operand

/-- The register of the default value of a pin. -/
def Context.constantOperand (cx : Context) (p : Proxy) : Attempt Operand := do
  let g := cx.tree.graph
  match p.pin? with
  | none => throw .missingProxy
  | some id =>
    let suffix := if (← g.pin id).direction = .inOut then "::IO" else "::Const"
    cx.allocateFor ((← p.path g) ++ suffix) .literal p

/-- The register that collects the values of a pin, and of those it shares storage with. -/
def Context.watchOperand (cx : Context) (p : Proxy) : Attempt Operand := do
  let g := cx.tree.graph
  match p.pin? with
  | none => throw .missingProxy
  | some id =>
    let pin ← g.pin id
    let key := (← (cx.sharing.representative p).path g) ++ "::Debug"
    allocateWith key .debug (some id) (cx.env.types.buildWatch key pin.typeName)

/-- The external variable a pin refers to. -/
def Context.externalOperand (cx : Context) (p : Proxy) : Attempt Operand := do
  let g := cx.tree.graph
  match p.pin? with
  | none => throw .missingProxy
  | some id =>
    let pin ← g.pin id
    if pin.isRoot then
      let name ← cx.tree.externalName pin
      match cx.env.externalIndex? name with
      | some index => return { memory := .external, index }
      | none => throw (.unknownExternal name)
    else throw (.externalSubPin (← p.path g))

/-! ## Expressions -/

/-- Looks up the operand of an expression, and otherwise finds and keeps it. -/
def memoized (e : ExprId) (find : Attempt Operand) : Attempt Operand := do
  let s ← get
  match s.operands.lookup e with
  | some operand => return operand
  | none =>
    if e ∈ s.failed then throw .dependencyFailed
    else
      let operand ← find
      modify fun s => { s with operands := (e, operand) :: s.operands }
      return operand

/-- Makes the operand of a pin known by the pin's path. -/
def Context.publish (cx : Context) (p : Proxy) (operand : Operand) : Step Unit := do
  let path ← p.path cx.tree.graph
  modify fun s => { s with pinPaths := s.pinPaths.insert path operand }

/-- The operand of a value expression. -/
def Context.pinExprOperand (cx : Context) (e : ExprId) : Attempt Operand := do
  let x ← cx.tree.expr e
  memoized e do
    match x.kind, x.proxy with
    | .literal, some p => cx.constantOperand p
    | .externalVar, some p =>
      let operand ← cx.externalOperand p
      cx.publish p operand
      return operand
    | .var, some p =>
      let operand ← cx.valueOperand p
      cx.publish p operand
      return operand
    | kind, none => if kind.isValue then throw .missingProxy else throw .notAValue
    | _, some _ => throw .notAValue

/-- The operand of an expression that holds a value: a value expression, or a cached value, which has
the operand of its first value child. -/
def Context.operandOf (cx : Context) (e : ExprId) : Attempt Operand := do
  match ← cx.tree.kind e with
  | .cachedValue =>
    memoized e do
      let children ← cx.tree.children e
      match ← children.findM? (m := Checked) fun c => return (← cx.tree.kind c).isValue with
      | some child => cx.pinExprOperand child
      | none => throw .notAValue
  | _ => cx.pinExprOperand e

/-- The child that stands for the root pin of that name. -/
def Context.requiredVar (cx : Context) (e : ExprId) (pin : String) : Attempt ExprId := do
  match ← cx.tree.varForPin e pin with
  | some var => return var
  | none => throw (.missingPin (← cx.tree.expr e).name pin)

/-- The operand of the child that stands for the root pin of that name. -/
def Context.pinOperand (cx : Context) (e : ExprId) (pin : String) : Attempt Operand := do
  cx.operandOf (← cx.requiredVar e pin)

/-- The number of a function and the operands of its parameters. -/
def Context.callOperands (cx : Context) (e : ExprId) (function : String) :
    Attempt (Nat × List Operand) := do
  match cx.env.catalog.find? function with
  | none => throw (.unknownFunction function)
  | some (index, signature) =>
    return (index, ← signature.parameters.mapM fun parameter => cx.pinOperand e parameter.name)

/-! ## Watches -/

/-- Adds a mirror to an operand, unless it is there. -/
def addMirror (mirrors : SortedMap Operand (List Operand)) (live mirror : Operand) :
    SortedMap Operand (List Operand) :=
  let present := (mirrors.get? live).getD []
  mirrors.insert live (if mirror ∈ present then present else present ++ [mirror])

/-- Mirrors the operand of a value expression if its pin is watched. -/
def Context.watch (cx : Context) (e : ExprId) (live : Operand) : Attempt Unit := do
  match (← cx.tree.expr e).proxy with
  | none => return ()
  | some p =>
    if cx.options.isWatched (← p.path cx.tree.graph) then
      let mirror ← cx.watchOperand p
      modify fun s => { s with mirrors := addMirror s.mirrors live mirror }
    else return ()

end NodeGraph.Lowering
