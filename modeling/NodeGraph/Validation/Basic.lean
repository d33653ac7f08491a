import NodeGraph.Environment
import NodeGraph.Tree.Search
import NodeGraph.Tree.Variables
import NodeGraph.Validation.Structure

/-!
# Validation

The checks before a tree is compiled. The structure of the graph and the roots come first; links and
expressions are looked at only if these are right. All issues are collected.
-/
namespace NodeGraph

/-- Whether a proxy refers to an existing node or pin, seen through existing call sites. -/
def Proxy.existsIn (g : Graph) (p : Proxy) : Bool :=
  let target := match p.target with
    | .node id => (g.node? id).isSome
    | .pin id => (g.pin? id).isSome
  target && p.callStack.all fun site =>
    match g.node? site with
    | some { kind := .functionReference _, .. } => true
    | _ => false

namespace Tree

/-- What is wrong with the variable a value stands for. -/
def variableIssues (t : Tree) (env : Environment) (e : ExprId) (x : Expression) :
    Checked (List String) := do
  match ← t.nodeKindOf e, x.proxy with
  | some (.variableAccess name _), some proxy =>
    if (← t.findLocal proxy.callStack name).isSome || env.isExternal name then return []
    else
      return ["variable '" ++ name ++
        "' is neither a local of an enclosing function nor an external variable"]
  | _, _ => return []

/-- What is wrong with the external variable an expression stands for. -/
def externalIssues (t : Tree) (env : Environment) (e : ExprId) : Checked (List String) := do
  match ← t.pinOf e with
  | none => return []
  | some pin =>
    let name ← t.externalName pin
    if env.isExternal name then return []
    else return ["external variable '" ++ name ++ "' is not bound"]

/-- What is wrong with the function a node calls. -/
def functionIssues (t : Tree) (env : Environment) (e : ExprId) (x : Expression) (function : String) :
    Checked (List String) := do
  match env.catalog.find? function with
  | none => return ["function '" ++ function ++ "' is not in the catalog"]
  | some (_, signature) =>
    let messages ← signature.parameters.mapM fun parameter => do
      if (← t.varForPin e parameter.name).isSome then return none
      else
        return some ("'" ++ x.name ++ "' has no pin for parameter '" ++ parameter.name ++ "' of '" ++
          function ++ "'")
    return messages.filterMap id

/-- One message for each pin that no child stands for. -/
def missingPinIssues (t : Tree) (e : ExprId) (pins : List String) : Checked (List String) := do
  let messages ← pins.mapM fun pin => do
    if (← t.varForPin e pin).isSome then return none
    else return some ("required pin '" ++ pin ++ "' is not connected")
  return messages.filterMap id

/-- What is wrong with an expression that stands for a node: what it calls and the pins it needs. -/
def nodeExprIssues (t : Tree) (env : Environment) (e : ExprId) (x : Expression) :
    Checked (List String) := do
  match ← t.nodeKindOf e with
  | none => return []
  | some kind =>
    match x.kind, kind with
    | .call, .unit function => t.functionIssues env e x function
    | .call, .forLoop function =>
      return (← t.functionIssues env e x function) ++
        (← t.missingPinIssues e [PinName.count, PinName.index, PinName.proceed])
    | .call, _ => return [kind.describe ++ " node cannot be called"]
    | .branch, _ => t.missingPinIssues e [PinName.condition]
    | .ifElse, _ =>
      t.missingPinIssues e [PinName.condition, PinName.whenTrue, PinName.whenFalse, PinName.result]
    | .select, _ => t.missingPinIssues e [PinName.index, PinName.result]
    | .array, .array op => t.missingPinIssues e op.pinNames
    | .array, _ => return [kind.describe ++ " node is not an array operation"]
    | _, _ => return []

/-- What is wrong with the meaning of an expression whose references are right. -/
def meaningIssues (t : Tree) (env : Environment) (e : ExprId) (x : Expression) :
    Checked (List String) :=
  match x.kind with
  | .var => t.variableIssues env e x
  | .externalVar => t.externalIssues env e
  | kind => if kind.isNode then t.nodeExprIssues env e x else return []

/-- The first of the proxies of an expression that refers to nothing. -/
def danglingProxy (t : Tree) (x : Expression) : Option Proxy :=
  (x.proxy.toList ++ x.source.toList).find? fun p => !p.existsIn t.graph

/-- The messages about an expression: relatives that do not exist, then the first of its other
faults. -/
def exprIssues (t : Tree) (env : Environment) (e : ExprId) (x : Expression) :
    Checked (List String) := do
  let relatives := (x.children ++ x.parents).filterMap fun c =>
    if (t.expr? c).isSome then none else some s!"refers to missing expression #{c}"
  let rest ←
    match t.danglingProxy x with
    | some p => pure ["refers to missing " ++ p.target.describe]
    | none =>
      if (x.kind.isValue || x.kind.isTransfer) && x.pin?.isNone then
        pure ["does not refer to a pin"]
      else if x.kind.isTransfer && (x.source.bind Proxy.pin?).isNone then pure ["has no source pin"]
      else t.meaningIssues env e x
  return relatives ++ rest

/-- The issues of links that refer to nothing. -/
def linkIssues (t : Tree) : List Issue :=
  t.links.flatMap fun l => [l.source, l.target].filterMap fun p =>
    if p.existsIn t.graph then none else some ⟨.tree, "link refers to missing " ++ p.target.describe⟩

def rootIssues (t : Tree) : List Issue :=
  t.roots.filterMap fun r =>
    if (t.expr? r).isSome then none else some ⟨.tree, s!"root refers to missing expression #{r}"⟩

/-- The issues of a tree. None means that it can be compiled. -/
def issues (t : Tree) (env : Environment) : Checked (List Issue) := do
  match t.graph.structureIssues ++ t.rootIssues with
  | [] =>
    let perExpr ← t.exprs.zipIdx.mapM fun (x, e) => do
      return (← t.exprIssues env e x).map (⟨.expression e, ·⟩)
    return t.linkIssues ++ perExpr.flatten
  | broken => return broken

end Tree
end NodeGraph
