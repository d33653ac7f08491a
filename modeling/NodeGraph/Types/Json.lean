import NodeGraph.Json.Shape
import NodeGraph.Types.Basic

/-!
# Types in JSON
-/
namespace NodeGraph

namespace StructField

def toJson (f : StructField) : Json := .object [
  ("name", .string f.name),
  ("type_name", .string f.typeName)]

def ofJson? (v : Json) : Option StructField := do
  let r ← v.record? ["name", "type_name"] 2
  return {
    name := ← r.required "name" Json.string?
    typeName := ← r.required "type_name" Json.string? }

end StructField

namespace TypeKind

def toJson : TypeKind → Json
  | bool => .string "Bool"
  | int32 => .string "Int32"
  | float => .string "Float"
  | double => .string "Double"
  | name => .string "Name"
  | string => .string "String"
  | execute => .string "ExecuteContext"
  | struct fields =>
    .object [("Struct", .object [("fields", Json.ofList StructField.toJson fields)])]
  | enum variants => .object [("Enum", .object [("variants", Json.ofList .string variants)])]

/-- A kind without a payload. -/
def plain? : String → Option TypeKind
  | "Bool" => some bool
  | "Int32" => some int32
  | "Float" => some float
  | "Double" => some double
  | "Name" => some name
  | "String" => some string
  | "ExecuteContext" => some execute
  | _ => none

def ofJson? (v : Json) : Option TypeKind := do
  match ← v.variant? with
  | (tag, none) => plain? tag
  | ("Struct", some payload) =>
    let r ← payload.record? ["fields"] 1
    return struct (← r.required "fields" (Json.list? StructField.ofJson?))
  | ("Enum", some payload) =>
    let r ← payload.record? ["variants"] 1
    return enum (← r.required "variants" (Json.list? Json.string?))
  | (tag, some .null) => plain? tag
  | _ => none

end TypeKind

namespace TypeDefinition

def toJson (d : TypeDefinition) : Json := .object [
  ("name", .string d.name),
  ("kind", d.kind.toJson)]

def ofJson? (v : Json) : Option TypeDefinition := do
  let r ← v.record? ["name", "kind"] 2
  return {
    name := ← r.required "name" Json.string?
    kind := ← r.required "kind" TypeKind.ofJson? }

end TypeDefinition

def TypeInfo.toJson (t : TypeInfo) : Json := .object [
  ("name", .string t.name),
  ("kind", t.kind.toJson),
  ("size", .natural t.size),
  ("alignment", .natural t.alignment)]

end NodeGraph
