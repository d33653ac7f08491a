import NodeGraph.Tree.Basic

/-!
# Variables

A variable node reads or writes a local of a function around it, or a variable of the host. The
functions around an expression are those called on its call stack, and the innermost one that declares
a name counts.
-/
namespace NodeGraph

/-- The call stacks that end at each of the call sites, outermost first. -/
def CallStack.sites (s : CallStack) : List CallStack :=
  (List.range s.length).map fun depth => s.take (depth + 1)

namespace Tree

/-- The function called at a call site, if the site is one and the function is defined. -/
def functionAt (t : Tree) (site : NodeId) : Checked (Option FunctionDefinition) := do
  match (← t.graph.node site).kind with
  | .functionReference function => return t.function? function
  | _ => return none

/-- The function entered last on a call stack. -/
def innermostFunction (t : Tree) (s : CallStack) : Checked (Option FunctionDefinition) :=
  match s.innermost with
  | none => return none
  | some site => t.functionAt site

/-- A local variable and where it lives. -/
structure LocalAccess where
  /-- The call stack that ends at the call site that owns the copy. -/
  callSite : CallStack
  function : FunctionDefinition
  declaration : LocalVariable
deriving DecidableEq, Repr

/-- The local of that name that the function called at a call site declares. -/
def localAt (t : Tree) (name : String) (callSite : CallStack) : Checked (Option LocalAccess) := do
  match ← t.innermostFunction callSite with
  | none => return none
  | some function => return (function.local? name).map (⟨callSite, function, ·⟩)

/-- The local a name means inside a call stack: that of the innermost function declaring it. -/
def findLocal (t : Tree) (s : CallStack) (name : String) : Checked (Option LocalAccess) :=
  s.sites.reverse.findSomeM? (t.localAt name)

/-- The name by which a pin refers to an external variable. -/
def externalName (t : Tree) (pin : Pin) : Checked String := do
  match (← t.graph.node pin.node).kind with
  | .variableAccess name _ => return name
  | _ => return pin.name

end Tree
end NodeGraph
