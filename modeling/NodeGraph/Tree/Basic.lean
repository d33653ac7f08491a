import NodeGraph.Proxy

/-!
# Expression trees

The compiler's input: expressions over a graph, kept in an arena and referring to each other by
position. An expression may have several parents, and nothing keeps a tree read from outside from
naming children that do not exist or from running in circles.
-/
namespace NodeGraph

inductive ExprKind where
  | block
  | entry
  | call
  | noOp
  | var
  | literal
  | externalVar
  | assign
  | copy
  | cachedValue
  | exit
  | branch
  | ifElse
  | select
  | array
deriving DecidableEq, Repr, Inhabited

namespace ExprKind

def all : List ExprKind :=
  [block, entry, call, noOp, var, literal, externalVar, assign, copy, cachedValue, exit, branch,
    ifElse, select, array]

def name : ExprKind → String
  | block => "Block"
  | entry => "Entry"
  | call => "CallExtern"
  | noOp => "NoOp"
  | var => "Var"
  | literal => "Literal"
  | externalVar => "ExternalVar"
  | assign => "Assign"
  | copy => "Copy"
  | cachedValue => "CachedValue"
  | exit => "Exit"
  | branch => "Branch"
  | ifElse => "If"
  | select => "Select"
  | array => "Array"

/-- The word for a kind in listings and messages. -/
def label : ExprKind → String
  | call => "Call"
  | cachedValue => "Cache"
  | kind => kind.name

/-- Kinds that own or alias the storage of one pin. -/
def isValue : ExprKind → Bool
  | var | literal | externalVar => true
  | _ => false

/-- Kinds that stand for a whole node. -/
def isNode : ExprKind → Bool
  | call | noOp | branch | ifElse | select | array => true
  | _ => false

/-- Kinds that move a value from one pin to another. -/
def isTransfer : ExprKind → Bool
  | assign | copy => true
  | _ => false

end ExprKind

structure Expression where
  kind : ExprKind
  name : String
  parents : List ExprId := []
  children : List ExprId := []
  /-- The pin or node this expression stands for; the target of a transfer. -/
  proxy : Option Proxy := none
  /-- The source of a transfer. -/
  source : Option Proxy := none
deriving DecidableEq, Repr, Inhabited

/-- The pin an expression refers to, whether or not it exists. -/
def Expression.pin? (x : Expression) : Option PinId := x.proxy.bind Proxy.pin?

structure Tree where
  graph : Graph := {}
  functions : List FunctionDefinition := []
  exprs : List Expression := []
  roots : List ExprId := []
  links : List ProxyLink := []
deriving DecidableEq, Repr, Inhabited

namespace Tree

def expr? (t : Tree) (e : ExprId) : Option Expression := t.exprs[e]?

def expr (t : Tree) (e : ExprId) : Checked Expression := Checked.get .missingExpression t.exprs e

def children (t : Tree) (e : ExprId) : Checked (List ExprId) := return (← t.expr e).children

/-- The first parent. -/
def parent (t : Tree) (e : ExprId) : Checked (Option ExprId) := return (← t.expr e).parents.head?

def kind (t : Tree) (e : ExprId) : Checked ExprKind := return (← t.expr e).kind

def function? (t : Tree) (name : String) : Option FunctionDefinition :=
  t.functions.find? (·.name = name)

/-- The pin of an expression, if it refers to one that exists. -/
def pinOf (t : Tree) (e : ExprId) : Checked (Option Pin) := do
  return (← t.expr e).pin?.bind t.graph.pin?

/-- The kind of the node an expression stands for, or of the node its pin belongs to. -/
def nodeKindOf (t : Tree) (e : ExprId) : Checked (Option NodeKind) := do
  match (← t.expr e).proxy with
  | none => return none
  | some proxy =>
    let node ← t.graph.node (← proxy.nodeId t.graph)
    return some node.kind

end Tree
end NodeGraph
