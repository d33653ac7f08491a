import NodeGraph.Catalog
import NodeGraph.Json.Shape

/-!
# Function signatures in JSON
-/
namespace NodeGraph

namespace ParameterDirection

def toJson (d : ParameterDirection) : Json := .string d.name

def ofJson? : Json → Option ParameterDirection := Json.choice? all name

end ParameterDirection

namespace Parameter

def toJson (p : Parameter) : Json := .object [
  ("name", .string p.name),
  ("direction", p.direction.toJson)]

def ofJson? (v : Json) : Option Parameter := do
  let r ← v.record? ["name", "direction"] 2
  return {
    name := ← r.required "name" Json.string?
    direction := ← r.required "direction" ParameterDirection.ofJson? }

end Parameter

namespace FunctionSignature

def toJson (f : FunctionSignature) : Json := .object [
  ("name", .string f.name),
  ("parameters", Json.ofList Parameter.toJson f.parameters)]

def ofJson? (v : Json) : Option FunctionSignature := do
  let r ← v.record? ["name", "parameters"] 2
  return {
    name := ← r.required "name" Json.string?
    parameters := ← r.required "parameters" (Json.list? Parameter.ofJson?) }

end FunctionSignature
end NodeGraph
