import NodeGraph.Tree.Basic

/-!
# The outline of a tree

One line per expression, indented by nesting. An expression with several parents is listed below each
of them.
-/
namespace NodeGraph.Tree

/-- What a line says about pins: the ends of a transfer, or the type of a value. -/
def pinNote (t : Tree) (x : Expression) : Checked String :=
  match x.source, x.proxy with
  | some source, some target => do
    return " (" ++ (← source.path t.graph) ++ " -> " ++ (← target.path t.graph) ++ ")"
  | none, some proxy =>
    if x.kind.isValue then
      match proxy.pin? with
      | some p => do
        let pin ← t.graph.pin p
        return " : " ++ pin.typeName ++ (if pin.isArray then "[]" else "")
      | none => return ""
    else return ""
  | _, none => return ""

def outlineLine (t : Tree) (depth : Nat) (x : Expression) : Checked String := do
  let note ← t.pinNote x
  let shared := if x.parents.length > 1 then s!" (shared by {x.parents.length})" else ""
  return Text.repeated "  " depth ++ "[" ++ x.kind.label ++ "] " ++ x.name ++ note ++ shared ++ "\n"

/-- The lines of an expression and everything below it. `steps` bounds the nesting. -/
def outlineWithin (t : Tree) : Nat → Nat → ExprId → Checked String
  | 0, _, e => .error (.endlessNesting e)
  | steps + 1, depth, e => do
    let x ← t.expr e
    let line ← t.outlineLine depth x
    let below ← x.children.mapM (t.outlineWithin steps (depth + 1))
    return line ++ Text.joined "" below

def outline (t : Tree) : Checked String := do
  return Text.joined "" (← t.roots.mapM (t.outlineWithin (t.exprs.length + 1) 0))

end NodeGraph.Tree
