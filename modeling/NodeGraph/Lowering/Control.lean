import NodeGraph.Lowering.Operands

/-!
# Control flow

Branches, selections and loops. Their arms are blocks below execution pins, or values of pins. The
setup pass only walks the children; the emit pass lowers the arms in the order of the code, with jumps
around them. All operands are known before the first jump is emitted, so an expression that fails
leaves no jump without a destination and no open block behind.

The functions take the way to lower another expression as an argument.
-/
namespace NodeGraph.Lowering

/-! ## Parts -/

/-- Lowers the children of an expression in order. -/
def Context.lowerChildren (cx : Context) (lower : ExprId → Step Unit) (e : ExprId) : Step Unit := do
  (← cx.tree.children e).forM lower

/-- Lowers the value of a pin and gives its operand. -/
def Context.lowerPin (cx : Context) (lower : ExprId → Step Unit) (e : ExprId) (pin : String) :
    Attempt Operand := do
  let var ← cx.requiredVar e pin
  lower var
  cx.operandOf var

/-- Lowers the block below an execution pin, if there is one. -/
def Context.lowerBlock (cx : Context) (lower : ExprId → Step Unit) (e : ExprId) (pin : String) :
    Step Unit := do
  match ← cx.tree.blockForPin e pin with
  | some block => lower block
  | none => return ()

/-- Emits a copy, unless both operands are the same. -/
def Context.copyValue (cx : Context) (source target : Operand) : Step Unit :=
  if source = target then return () else cx.emit (.copy source target)

/-- Emits two alternatives:

```text
    JumpIf condition == false a
    whenTrue
    JumpForward b
a:  whenFalse
b:
```
-/
def Context.alternative (cx : Context) (condition : Operand) (whenTrue whenFalse : Step Unit) :
    Step Unit := do
  let toFalse ← cx.reserve (.jumpIf condition 0 false)
  whenTrue
  let toEnd ← cx.reserve (.jumpForward 0)
  land toFalse
  whenFalse
  land toEnd

/-! ## Branches -/

/-- A branch runs the block of one of its execution pins `True` and `False`, then `Completed`. -/
def Context.lowerBranch (cx : Context) (lower : ExprId → Step Unit) (e : ExprId) : Attempt Unit := do
  match cx.pass with
  | .setup =>
    cx.lowerChildren lower e
    let _ ← cx.pinOperand e PinName.condition
  | .emit =>
    let condition ← cx.lowerPin lower e PinName.condition
    cx.alternative condition (cx.lowerBlock lower e PinName.whenTrue)
      (cx.lowerBlock lower e PinName.whenFalse)
    cx.lowerBlock lower e PinName.completed

/-- A conditional value copies the value of one of its pins `True` and `False` into `Result`. -/
def Context.lowerIf (cx : Context) (lower : ExprId → Step Unit) (e : ExprId) : Attempt Unit := do
  let whenTrue ← cx.requiredVar e PinName.whenTrue
  let whenFalse ← cx.requiredVar e PinName.whenFalse
  match cx.pass with
  | .setup =>
    cx.lowerChildren lower e
    let _ ← cx.pinOperand e PinName.condition
    let _ ← cx.pinOperand e PinName.result
    let _ ← cx.operandOf whenTrue
    let _ ← cx.operandOf whenFalse
  | .emit =>
    let trueValue ← cx.operandOf whenTrue
    let falseValue ← cx.operandOf whenFalse
    let result ← cx.lowerPin lower e PinName.result
    let condition ← cx.lowerPin lower e PinName.condition
    cx.alternative condition
      (do lower whenTrue; cx.copyValue trueValue result)
      (do lower whenFalse; cx.copyValue falseValue result)

/-! ## Selections -/

/-- Emits the comparisons of an index with the labels of the cases, and gives the addresses of the
jumps to the cases. -/
def Context.compareIndex (cx : Context) (index scratch : Operand) (labels : List Operand) :
    Step (List Nat) :=
  labels.mapM fun label => do
    cx.emit (.equals index label scratch)
    cx.reserve (.jumpIf scratch 0 true)

/-- Emits the cases of a selection, each reached by the jump at an address, if one is given. Every case
but the last ends in a jump to behind all cases. -/
def Context.emitCases (cx : Context) : List (Option Nat × Step Unit) → Step Unit
  | [] => return ()
  | [(jump, body)] => do
    jump.forM land
    body
  | (jump, body) :: rest => do
    jump.forM land
    body
    let toEnd ← cx.reserve (.jumpForward 0)
    cx.emitCases rest
    land toEnd

/-- A selection copies the value of one of its cases into `Result`: the case numbered by `Index`, and
case 0 if there is none of that number. The cases are the sub-pins of `Values`.

```text
    Equals index == 1 -> scratch
    JumpIf scratch == true c1
    …
    case 0
    JumpForward end
c1: case 1
    JumpForward end
    …
end:
```
-/
def Context.lowerSelect (cx : Context) (lower : ExprId → Step Unit) (e : ExprId) : Attempt Unit := do
  let cases ← cx.tree.subPinValues e PinName.values
  match cx.pass, cases with
  | .setup, [] =>
    cx.lowerChildren lower e
    cx.reportWarning (.expression e) "select has no cases and does nothing"
  | .emit, [] => return ()
  | .setup, _ :: others =>
    cx.lowerChildren lower e
    let _ ← cx.pinOperand e PinName.index
    let _ ← cx.pinOperand e PinName.result
    (List.range' 1 others.length).forM fun label => do let _ ← cx.caseLabel label
    if others ≠ [] then let _ ← cx.comparisonScratch
    cases.forM fun value => do let _ ← cx.operandOf value
  | .emit, first :: others =>
    let firstValue ← cx.operandOf first
    let otherValues ← others.mapM cx.operandOf
    let labels ← (List.range' 1 others.length).mapM cx.caseLabel
    let scratch ← if others = [] then pure none else some <$> cx.comparisonScratch
    let result ← cx.lowerPin lower e PinName.result
    let index ← cx.lowerPin lower e PinName.index
    let jumps ← match scratch with
      | none => pure []
      | some scratch => cx.compareIndex index scratch labels
    let body := fun (var, value) => do lower var; cx.copyValue value result
    cx.emitCases
      ((none, body (first, firstValue)) ::
        (jumps.zip (others.zip otherValues)).map fun (jump, arm) => (some jump, body arm))

/-! ## Loops -/

/-- Emits a loop that runs the block of `ExecuteContext` as long as `proceed` is true after the step:

```text
      Zero index
top:  step
      JumpIf proceed == false done
      BeginBlock count index
      body
      EndBlock
      Increment index
      JumpBackward top
done: the block of Completed
```
-/
def Context.emitLoop (cx : Context) (lower : ExprId → Step Unit) (e : ExprId)
    (count index proceed : Operand) (step : Instruction) : Step Unit := do
  cx.emit (.zero index)
  let top ← here
  cx.emit step
  let toDone ← cx.reserve (.jumpIf proceed 0 false)
  cx.emit (.beginBlock count index)
  cx.lowerBlock lower e PinName.execute
  cx.emit .endBlock
  cx.emit (.increment index)
  cx.emit (.jumpBackward ((← here) - top))
  land toDone
  cx.lowerBlock lower e PinName.completed

/-- The pins whose values a counted loop needs before it starts. -/
def loopPins (parameters : List Parameter) : List String :=
  let names := parameters.map (·.name)
  names ++ [PinName.count, PinName.index, PinName.proceed].filter (· ∉ names)

/-- A counted loop calls a function that sets `Continue` from `Count` and `Index`. -/
def Context.lowerForLoop (cx : Context) (lower : ExprId → Step Unit) (e : ExprId)
    (function : String) : Attempt Unit := do
  match cx.pass with
  | .setup =>
    cx.lowerChildren lower e
    let _ ← cx.callOperands e function
    let _ ← cx.pinOperand e PinName.proceed
  | .emit =>
    match cx.env.catalog.find? function with
    | none => throw (.unknownFunction function)
    | some (_, signature) =>
      (loopPins signature.parameters).forM fun pin => do
        let var ← cx.requiredVar e pin
        lower var
      let count ← cx.pinOperand e PinName.count
      let index ← cx.pinOperand e PinName.index
      let proceed ← cx.pinOperand e PinName.proceed
      let (number, operands) ← cx.callOperands e function
      cx.emitLoop lower e count index proceed (.execute number operands)

/-- A loop over the elements of an array, whose step sets all pins but `Array` and `Index`. -/
def Context.lowerIterate (cx : Context) (lower : ExprId → Step Unit) (e : ExprId) : Attempt Unit := do
  match cx.pass with
  | .setup =>
    cx.lowerChildren lower e
    ArrayOp.iterate.pinNames.forM fun pin => do let _ ← cx.pinOperand e pin
  | .emit =>
    let array ← cx.lowerPin lower e PinName.array
    let element ← cx.lowerPin lower e PinName.element
    let index ← cx.lowerPin lower e PinName.index
    let count ← cx.lowerPin lower e PinName.count
    let ratio ← cx.lowerPin lower e PinName.ratio
    let proceed ← cx.lowerPin lower e PinName.proceed
    cx.emitLoop lower e count index proceed
      (.array .iterate [array, element, index, count, ratio, proceed])

end NodeGraph.Lowering
