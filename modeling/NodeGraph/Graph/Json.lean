import NodeGraph.Graph.Basic
import NodeGraph.Json.Shape

/-!
# Graphs in JSON

Every field is written, in order of declaration. When read, fields that have a default may be left out.
-/
namespace NodeGraph

namespace ArrayOp

def toJson (op : ArrayOp) : Json := .string op.name

def ofJson? : Json → Option ArrayOp := Json.choice? all name

end ArrayOp

namespace PinDirection

def toJson (d : PinDirection) : Json := .string d.name

def ofJson? : Json → Option PinDirection := Json.choice? all name

end PinDirection

namespace NodeKind

/-- A variant with a payload. -/
def tagged (name : String) (payload : Json) : Json := .object [(name, payload)]

def toJson : NodeKind → Json
  | unit function => tagged "Unit" (.object [("function", .string function)])
  | forLoop function => tagged "ForLoop" (.object [("function", .string function)])
  | event name => tagged "Event" (.object [("name", .string name)])
  | branch => .string "Branch"
  | ifElse => .string "If"
  | select => .string "Select"
  | array op => tagged "Array" op.toJson
  | variableAccess name isGetter =>
    tagged "Variable" (.object [("name", .string name), ("is_getter", .bool isGetter)])
  | parameter name isInput =>
    tagged "Parameter" (.object [("name", .string name), ("is_input", .bool isInput)])
  | reroute => .string "Reroute"
  | enum => .string "Enum"
  | functionReference function =>
    tagged "FunctionReference" (.object [("function", .string function)])
  | functionEntry => .string "FunctionEntry"

/-- A kind without a payload. -/
def plain? : String → Option NodeKind
  | "Branch" => some branch
  | "If" => some ifElse
  | "Select" => some select
  | "Reroute" => some reroute
  | "Enum" => some enum
  | "FunctionEntry" => some functionEntry
  | _ => none

/-- A record with a text as its only field. -/
def textField? (name : String) (payload : Json) : Option String := do
  (← payload.record? [name] 1).required name Json.string?

/-- A record with a name and a flag. -/
def flagged? (flag : String) (payload : Json) : Option (String × Bool) := do
  let r ← payload.record? ["name", flag] 2
  return (← r.required "name" Json.string?, ← r.required flag Json.bool?)

def ofJson? (v : Json) : Option NodeKind := do
  match ← v.variant? with
  | (tag, none) => plain? tag
  | ("Unit", some payload) => return unit (← textField? "function" payload)
  | ("ForLoop", some payload) => return forLoop (← textField? "function" payload)
  | ("Event", some payload) => return event (← textField? "name" payload)
  | ("Array", some payload) => return array (← ArrayOp.ofJson? payload)
  | ("Variable", some payload) =>
    let (name, isGetter) ← flagged? "is_getter" payload
    return variableAccess name isGetter
  | ("Parameter", some payload) =>
    let (name, isInput) ← flagged? "is_input" payload
    return parameter name isInput
  | ("FunctionReference", some payload) =>
    return functionReference (← textField? "function" payload)
  | (tag, some .null) => plain? tag
  | _ => none

end NodeKind

namespace Pin

def toJson (p : Pin) : Json := .object [
  ("node", .natural p.node),
  ("name", .string p.name),
  ("direction", p.direction.toJson),
  ("type_name", .string p.typeName),
  ("is_array", .bool p.isArray),
  ("default_value", .string p.defaultValue),
  ("parent", Json.ofOption .natural p.parent),
  ("sub_pins", Json.ofList .natural p.subPins)]

def fields : List String :=
  ["node", "name", "direction", "type_name", "is_array", "default_value", "parent", "sub_pins"]

def ofJson? (v : Json) : Option Pin := do
  let r ← v.record? fields 4
  return {
    node := ← r.required "node" Json.word?
    name := ← r.required "name" Json.string?
    direction := ← r.required "direction" PinDirection.ofJson?
    typeName := ← r.required "type_name" Json.string?
    isArray := ← r.optional "is_array" Json.bool? false
    defaultValue := ← r.optional "default_value" Json.string? ""
    parent := ← r.optional "parent" (Json.nullable? Json.word?) none
    subPins := ← r.optional "sub_pins" (Json.list? Json.word?) [] }

end Pin

namespace Node

def toJson (n : Node) : Json := .object [
  ("name", .string n.name),
  ("kind", n.kind.toJson),
  ("pins", Json.ofList .natural n.pins),
  ("declared_arity", Json.ofOption .natural n.declaredArity)]

def fields : List String := ["name", "kind", "pins", "declared_arity"]

def ofJson? (v : Json) : Option Node := do
  let r ← v.record? fields 3
  return {
    name := ← r.required "name" Json.string?
    kind := ← r.required "kind" NodeKind.ofJson?
    pins := ← r.required "pins" (Json.list? Json.word?)
    declaredArity := ← r.optional "declared_arity" (Json.nullable? Json.word?) none }

end Node

namespace Graph

def toJson (g : Graph) : Json := .object [
  ("nodes", Json.ofList Node.toJson g.nodes),
  ("pins", Json.ofList Pin.toJson g.pins)]

def ofJson? (v : Json) : Option Graph := do
  let r ← v.record? ["nodes", "pins"] 2
  return {
    nodes := ← r.required "nodes" (Json.list? Node.ofJson?)
    pins := ← r.required "pins" (Json.list? Pin.ofJson?) }

end Graph

namespace LocalVariable

def toJson (v : LocalVariable) : Json := .object [
  ("name", .string v.name),
  ("type_name", .string v.typeName),
  ("is_array", .bool v.isArray),
  ("default_value", .string v.defaultValue)]

def fields : List String := ["name", "type_name", "is_array", "default_value"]

def ofJson? (v : Json) : Option LocalVariable := do
  let r ← v.record? fields 2
  return {
    name := ← r.required "name" Json.string?
    typeName := ← r.required "type_name" Json.string?
    isArray := ← r.optional "is_array" Json.bool? false
    defaultValue := ← r.optional "default_value" Json.string? "" }

end LocalVariable

namespace FunctionDefinition

def toJson (f : FunctionDefinition) : Json := .object [
  ("name", .string f.name),
  ("locals", Json.ofList LocalVariable.toJson f.locals)]

def ofJson? (v : Json) : Option FunctionDefinition := do
  let r ← v.record? ["name", "locals"] 1
  return {
    name := ← r.required "name" Json.string?
    locals := ← r.optional "locals" (Json.list? LocalVariable.ofJson?) [] }

end FunctionDefinition
end NodeGraph
