import NodeGraph.Tree.Basic

/-!
# Shared pins

Two linked pins hold the same value and can live in one register. The pins that share a register are
the connected components of the shareable links. Links into the input side of a variable or a parameter
are not shareable: writing a variable copies, or the variable would alias what it was set from.
-/
namespace NodeGraph

/-- Whether the ends of a link may live in one register: both are root pins, the source is not an
execution pin, and the target does not write a variable or a parameter. -/
def ProxyLink.isShareable (g : Graph) (l : ProxyLink) : Checked Bool := do
  match l.source.pin?, l.target.pin? with
  | some s, some t =>
    let source ← g.pin s
    let target ← g.pin t
    if !source.isRoot || !target.isRoot || source.isExecute then return false
    else
      let owner ← g.node target.node
      return !(owner.kind.isStorage && target.direction.isInputSide)
  | _, _ => return false

/-- A partition of the linked proxies. Each group is in ascending order and holds at least two
proxies; a proxy in no group is alone. -/
structure Sharing where
  groups : List (List Proxy) := []
deriving DecidableEq, Repr

namespace Sharing

/-- The proxies that share a register with `p`, itself included, in ascending order. -/
def group (s : Sharing) (p : Proxy) : List Proxy :=
  match s.groups.find? (p ∈ ·) with
  | some g => g
  | none => [p]

/-- The least proxy of a group, which names its register. -/
def representative (s : Sharing) (p : Proxy) : Proxy := (s.group p).headD p

/-- Joins the groups of the two ends of a link. -/
def join (s : Sharing) (l : ProxyLink) : Sharing :=
  if l.target ∈ s.group l.source then s
  else
    let joined := (s.group l.source).merge (s.group l.target) fun a b => (compare a b).isLE
    ⟨joined :: s.groups.filter fun g => l.source ∉ g && l.target ∉ g⟩

/-- The groups of a list of links. -/
def ofLinks (links : List ProxyLink) : Sharing := links.foldl join {}

/-- The groups of the shareable links of a tree. -/
def ofTree (t : Tree) : Checked Sharing := do
  let marked ← t.links.mapM fun l => return (l, ← l.isShareable t.graph)
  return ofLinks ((marked.filter (·.2)).map (·.1))

end Sharing
end NodeGraph
