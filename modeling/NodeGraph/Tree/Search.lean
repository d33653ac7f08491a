import NodeGraph.Tree.Basic

/-!
# Searching trees

Children by kind or by the pin they stand for, ancestors by kind. Walks down or up a tree count their
steps: a walk that takes more steps than there are expressions has met one of them twice.
-/
namespace NodeGraph.Tree

/-- The first child of a kind: direct children before deeper ones. -/
def firstChildWithin (t : Tree) (kind : ExprKind) : Nat → ExprId → Checked (Option ExprId)
  | 0, e => .error (.endlessNesting e)
  | depth + 1, e => do
    let children ← t.children e
    match ← children.findM? fun c => return (← t.kind c) = kind with
    | some direct => return some direct
    | none => children.findSomeM? (t.firstChildWithin kind depth)

def firstChildOfKind (t : Tree) (e : ExprId) (kind : ExprKind) : Checked (Option ExprId) :=
  t.firstChildWithin kind (t.exprs.length + 1) e

/-- The nearest of `e` and its first parents that has a kind. -/
def nearestWithin (t : Tree) (kind : ExprKind) : Nat → Option ExprId → Checked (Option ExprId)
  | _, none => return none
  | 0, some e => .error (.endlessNesting e)
  | depth + 1, some e => do
    if (← t.kind e) = kind then return some e
    else t.nearestWithin kind depth (← t.parent e)

/-- The nearest ancestor of a kind, along first parents. -/
def firstParentOfKind (t : Tree) (e : ExprId) (kind : ExprKind) : Checked (Option ExprId) := do
  t.nearestWithin kind (t.exprs.length + 1) (← t.parent e)

def blockOf (t : Tree) (e : ExprId) : Checked (Option ExprId) := t.firstParentOfKind e .block

/-- The last of the blocks around a block. -/
def outermostWithin (t : Tree) : Nat → ExprId → Checked ExprId
  | 0, e => .error (.endlessNesting e)
  | depth + 1, e => do
    match ← t.blockOf e with
    | some outer => t.outermostWithin depth outer
    | none => return e

/-- The outermost block around `e`, or `e` itself if it is a block inside no other. -/
def rootBlockOf (t : Tree) (e : ExprId) : Checked (Option ExprId) := do
  let block ← if (← t.kind e) = .block then pure (some e) else t.blockOf e
  match block with
  | none => return none
  | some b => return some (← t.outermostWithin (t.exprs.length + 1) b)

/-- Whether an expression is a value that stands for the root pin of that name. -/
def isVarForPin (t : Tree) (name : String) (e : ExprId) : Checked Bool := do
  let x ← t.expr e
  return x.kind.isValue && (x.pin?.bind t.graph.pin?).any fun pin => pin.isRoot && pin.name = name

/-- The child that stands for the root pin of that name. -/
def varForPin (t : Tree) (e : ExprId) (name : String) : Checked (Option ExprId) := do
  (← t.children e).findM? (t.isVarForPin name)

/-- The block below the child that stands for the execution pin of that name. -/
def blockForPin (t : Tree) (e : ExprId) (name : String) : Checked (Option ExprId) := do
  match ← t.varForPin e name with
  | none => return none
  | some var => (← t.children var).findM? fun c => return (← t.kind c) = .block

/-- Whether an expression is a value that stands for a sub-pin of a pin of that name. -/
def isSubPinValue (t : Tree) (name : String) (e : ExprId) : Checked Bool := do
  let x ← t.expr e
  match x.pin?.bind t.graph.pin? with
  | some pin =>
    if x.kind.isValue then
      match pin.parent with
      | some parent => return (← t.graph.pin parent).name = name
      | none => return false
    else return false
  | none => return false

/-- The children that stand for sub-pins of the pin of that name, in order. -/
def subPinValues (t : Tree) (e : ExprId) (name : String) : Checked (List ExprId) := do
  let marked ← (← t.children e).mapM fun c => return (c, ← t.isSubPinValue name c)
  return (marked.filter (·.2)).map (·.1)

end NodeGraph.Tree
