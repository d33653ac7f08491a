import NodeGraph.Graph.Json
import NodeGraph.Tree.Basic

/-!
# Trees in JSON
-/
namespace NodeGraph

namespace GraphRef

def toJson : GraphRef → Json
  | node id => .object [("Node", .natural id)]
  | pin id => .object [("Pin", .natural id)]

def ofJson? (v : Json) : Option GraphRef := do
  match ← v.variant? with
  | ("Node", some id) => return node (← id.word?)
  | ("Pin", some id) => return pin (← id.word?)
  | _ => none

end GraphRef

namespace Proxy

def toJson (p : Proxy) : Json := .object [
  ("call_stack", Json.ofList .natural p.callStack),
  ("target", p.target.toJson)]

def ofJson? (v : Json) : Option Proxy := do
  let r ← v.record? ["call_stack", "target"] 2
  return {
    callStack := ← r.required "call_stack" (Json.list? Json.word?)
    target := ← r.required "target" GraphRef.ofJson? }

end Proxy

namespace ProxyLink

def toJson (l : ProxyLink) : Json := .object [
  ("source", l.source.toJson),
  ("target", l.target.toJson)]

def ofJson? (v : Json) : Option ProxyLink := do
  let r ← v.record? ["source", "target"] 2
  return {
    source := ← r.required "source" Proxy.ofJson?
    target := ← r.required "target" Proxy.ofJson? }

end ProxyLink

namespace ExprKind

def toJson (k : ExprKind) : Json := .string k.name

def ofJson? : Json → Option ExprKind := Json.choice? all name

end ExprKind

namespace Expression

def toJson (x : Expression) : Json := .object [
  ("kind", x.kind.toJson),
  ("name", .string x.name),
  ("parents", Json.ofList .natural x.parents),
  ("children", Json.ofList .natural x.children),
  ("proxy", Json.ofOption Proxy.toJson x.proxy),
  ("source", Json.ofOption Proxy.toJson x.source)]

def fields : List String := ["kind", "name", "parents", "children", "proxy", "source"]

def ofJson? (v : Json) : Option Expression := do
  let r ← v.record? fields 2
  return {
    kind := ← r.required "kind" ExprKind.ofJson?
    name := ← r.required "name" Json.string?
    parents := ← r.optional "parents" (Json.list? Json.word?) []
    children := ← r.optional "children" (Json.list? Json.word?) []
    proxy := ← r.optional "proxy" (Json.nullable? Proxy.ofJson?) none
    source := ← r.optional "source" (Json.nullable? Proxy.ofJson?) none }

end Expression

namespace Tree

def toJson (t : Tree) : Json := .object [
  ("graph", t.graph.toJson),
  ("functions", Json.ofList FunctionDefinition.toJson t.functions),
  ("exprs", Json.ofList Expression.toJson t.exprs),
  ("roots", Json.ofList .natural t.roots),
  ("links", Json.ofList ProxyLink.toJson t.links)]

def fields : List String := ["graph", "functions", "exprs", "roots", "links"]

def ofJson? (v : Json) : Option Tree := do
  let r ← v.record? fields 4
  return {
    graph := ← r.required "graph" Graph.ofJson?
    functions := ← r.optional "functions" (Json.list? FunctionDefinition.ofJson?) []
    exprs := ← r.required "exprs" (Json.list? Expression.ofJson?)
    roots := ← r.required "roots" (Json.list? Json.word?)
    links := ← r.optional "links" (Json.list? ProxyLink.ofJson?) [] }

end Tree
end NodeGraph
