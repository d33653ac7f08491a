import NodeGraph.Catalog.Json
import NodeGraph.Document.Basic
import NodeGraph.Json.Printer
import NodeGraph.Json.Reader
import NodeGraph.Program.Json
import NodeGraph.Tree.Json
import NodeGraph.Types.Json

/-!
# Documents in JSON

A document is stored as text: `ofText?` reads what `toText` writes.
-/
namespace NodeGraph

namespace CompileOptions

def toJson (o : CompileOptions) : Json := .object [
  ("suppress_info", .bool o.suppressInfo),
  ("suppress_warnings", .bool o.suppressWarnings),
  ("enable_pin_watches", .bool o.enablePinWatches),
  ("watched_pins", Json.ofList .string o.watchedPins),
  ("record_call_stacks", .bool o.recordCallStacks)]

def fields : List String :=
  ["suppress_info", "suppress_warnings", "enable_pin_watches", "watched_pins", "record_call_stacks"]

def ofJson? (v : Json) : Option CompileOptions := do
  let r ← v.record? fields 0
  return {
    suppressInfo := ← r.optional "suppress_info" Json.bool? true
    suppressWarnings := ← r.optional "suppress_warnings" Json.bool? false
    enablePinWatches := ← r.optional "enable_pin_watches" Json.bool? true
    watchedPins := ← r.optional "watched_pins" (Json.list? Json.string?) []
    recordCallStacks := ← r.optional "record_call_stacks" Json.bool? true }

end CompileOptions

namespace Document

def toJson (d : Document) : Json := .object [
  ("types", Json.ofList TypeDefinition.toJson d.types),
  ("functions", Json.ofList FunctionSignature.toJson d.functions),
  ("externals", Json.ofList ExternalVariable.toJson d.externals),
  ("options", Json.ofOption CompileOptions.toJson d.options),
  ("tree", d.tree.toJson)]

def fields : List String := ["types", "functions", "externals", "options", "tree"]

def ofJson? (v : Json) : Option Document := do
  let r ← v.record? fields 5
  return {
    types := ← r.optional "types" (Json.list? TypeDefinition.ofJson?) []
    functions := ← r.optional "functions" (Json.list? FunctionSignature.ofJson?) []
    externals := ← r.optional "externals" (Json.list? ExternalVariable.ofJson?) []
    options := ← r.optional "options" (Json.nullable? CompileOptions.ofJson?) none
    tree := ← r.required "tree" Tree.ofJson? }

def toText (d : Document) : String := d.toJson.pretty

def ofText? (text : String) : Option Document := do ofJson? (← Json.parse? text)

end Document
end NodeGraph
