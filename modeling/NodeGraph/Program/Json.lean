import NodeGraph.Graph.Json
import NodeGraph.Program.Basic

/-!
# Programs in JSON

The mirrors are a list of pairs, because an operand cannot be the key of an object. Of two pairs for
one operand the later counts.
-/
namespace NodeGraph

/-! ## Operands -/

namespace MemorySpace

def toJson (s : MemorySpace) : Json := .string s.name

def ofJson? : Json → Option MemorySpace := Json.choice? all name

end MemorySpace

namespace Operand

def toJson (o : Operand) : Json := .object [
  ("memory", o.memory.toJson),
  ("index", .natural o.index),
  ("property_path", Json.ofOption .natural o.propertyPath)]

/-- The property path may be left out of an object, but not out of an array. -/
def ofJson? (v : Json) : Option Operand := do
  let r ← v.record? ["memory", "index", "property_path"] 3
  return {
    memory := ← r.required "memory" MemorySpace.ofJson?
    index := ← r.required "index" Json.word?
    propertyPath := ← r.optional "property_path" (Json.nullable? Json.word?) none }

end Operand

/-! ## Instructions -/

namespace Instruction

def withFields (name : String) (fields : List (String × Json)) : Json :=
  .object [(name, .object fields)]

def toJson : Instruction → Json
  | execute function operands =>
    withFields "Execute"
      [("function", .natural function), ("operands", Json.ofList Operand.toJson operands)]
  | copy source target => withFields "Copy" [("source", source.toJson), ("target", target.toJson)]
  | zero operand => .object [("Zero", operand.toJson)]
  | increment operand => .object [("Increment", operand.toJson)]
  | equals lhs rhs result =>
    withFields "Equals" [("lhs", lhs.toJson), ("rhs", rhs.toJson), ("result", result.toJson)]
  | jumpForward offset => .object [("JumpForward", .natural offset)]
  | jumpBackward offset => .object [("JumpBackward", .natural offset)]
  | jumpIf condition offset expected =>
    withFields "JumpIf"
      [("condition", condition.toJson), ("offset", .natural offset), ("expected", .bool expected)]
  | beginBlock count index =>
    withFields "BeginBlock" [("count", count.toJson), ("index", index.toJson)]
  | endBlock => .string "EndBlock"
  | array op operands =>
    withFields "Array" [("op", op.toJson), ("operands", Json.ofList Operand.toJson operands)]
  | exit => .string "Exit"

/-- An instruction without operands. -/
def plain? : String → Option Instruction
  | "EndBlock" => some endBlock
  | "Exit" => some exit
  | _ => none

def ofJson? (v : Json) : Option Instruction := do
  match ← v.variant? with
  | (tag, none) => plain? tag
  | ("Execute", some payload) =>
    let r ← payload.record? ["function", "operands"] 2
    return execute (← r.required "function" Json.word?)
      (← r.required "operands" (Json.list? Operand.ofJson?))
  | ("Copy", some payload) =>
    let r ← payload.record? ["source", "target"] 2
    return copy (← r.required "source" Operand.ofJson?) (← r.required "target" Operand.ofJson?)
  | ("Zero", some payload) => return zero (← Operand.ofJson? payload)
  | ("Increment", some payload) => return increment (← Operand.ofJson? payload)
  | ("Equals", some payload) =>
    let r ← payload.record? ["lhs", "rhs", "result"] 3
    return equals (← r.required "lhs" Operand.ofJson?) (← r.required "rhs" Operand.ofJson?)
      (← r.required "result" Operand.ofJson?)
  | ("JumpForward", some payload) => return jumpForward (← payload.word?)
  | ("JumpBackward", some payload) => return jumpBackward (← payload.word?)
  | ("JumpIf", some payload) =>
    let r ← payload.record? ["condition", "offset", "expected"] 3
    return jumpIf (← r.required "condition" Operand.ofJson?) (← r.required "offset" Json.word?)
      (← r.required "expected" Json.bool?)
  | ("BeginBlock", some payload) =>
    let r ← payload.record? ["count", "index"] 2
    return beginBlock (← r.required "count" Operand.ofJson?) (← r.required "index" Operand.ofJson?)
  | ("Array", some payload) =>
    let r ← payload.record? ["op", "operands"] 2
    return array (← r.required "op" ArrayOp.ofJson?)
      (← r.required "operands" (Json.list? Operand.ofJson?))
  | (tag, some .null) => plain? tag
  | _ => none

end Instruction

namespace Bytecode

def toJson (b : Bytecode) : Json := .object [
  ("instructions", Json.ofList Instruction.toJson b.instructions),
  ("entries", Json.ofMap .natural b.entries),
  ("call_stacks", Json.ofList (Json.ofList .natural) b.callStacks)]

def ofJson? (v : Json) : Option Bytecode := do
  let r ← v.record? ["instructions", "entries", "call_stacks"] 3
  return {
    instructions := ← r.required "instructions" (Json.list? Instruction.ofJson?)
    entries := ← r.required "entries" (Json.map? Json.word?)
    callStacks := ← r.required "call_stacks" (Json.list? (Json.list? Json.word?)) }

end Bytecode

/-! ## Memory -/

namespace Register

def toJson (r : Register) : Json := .object [
  ("name", .string r.name),
  ("type_name", .string r.typeName),
  ("element_count", .natural r.elementCount),
  ("is_array", .bool r.isArray),
  ("is_dynamic", .bool r.isDynamic),
  ("default_values", Json.ofList .string r.defaultValues),
  ("size", .natural r.size),
  ("alignment", .natural r.alignment)]

def fields : List String :=
  ["name", "type_name", "element_count", "is_array", "is_dynamic", "default_values", "size",
    "alignment"]

def ofJson? (v : Json) : Option Register := do
  let r ← v.record? fields 8
  return {
    name := ← r.required "name" Json.string?
    typeName := ← r.required "type_name" Json.string?
    elementCount := ← r.required "element_count" Json.word?
    isArray := ← r.required "is_array" Json.bool?
    isDynamic := ← r.required "is_dynamic" Json.bool?
    defaultValues := ← r.required "default_values" (Json.list? Json.string?)
    size := ← r.required "size" Json.word?
    alignment := ← r.required "alignment" Json.word? }

end Register

namespace PropertyPath

def toJson (p : PropertyPath) : Json := .object [
  ("register", .natural p.register),
  ("segments", .string p.segments)]

def ofJson? (v : Json) : Option PropertyPath := do
  let r ← v.record? ["register", "segments"] 2
  return {
    register := ← r.required "register" Json.word?
    segments := ← r.required "segments" Json.string? }

end PropertyPath

namespace MemoryTable

def toJson (t : MemoryTable) : Json := .object [
  ("space", t.space.toJson),
  ("registers", Json.ofList Register.toJson t.registers),
  ("property_paths", Json.ofList PropertyPath.toJson t.propertyPaths)]

def ofJson? (v : Json) : Option MemoryTable := do
  let r ← v.record? ["space", "registers", "property_paths"] 3
  return {
    space := ← r.required "space" MemorySpace.ofJson?
    registers := ← r.required "registers" (Json.list? Register.ofJson?)
    propertyPaths := ← r.required "property_paths" (Json.list? PropertyPath.ofJson?) }

end MemoryTable

/-! ## Programs -/

namespace ExternalVariable

def toJson (x : ExternalVariable) : Json := .object [
  ("name", .string x.name),
  ("type_name", .string x.typeName),
  ("is_array", .bool x.isArray)]

def ofJson? (v : Json) : Option ExternalVariable := do
  let r ← v.record? ["name", "type_name", "is_array"] 2
  return {
    name := ← r.required "name" Json.string?
    typeName := ← r.required "type_name" Json.string?
    isArray := ← r.optional "is_array" Json.bool? false }

end ExternalVariable

namespace Program

def mirrorsToJson (mirrors : SortedMap Operand (List Operand)) : Json :=
  Json.ofList (fun e => .array [e.1.toJson, Json.ofList Operand.toJson e.2]) mirrors.toList

def mirrorsOfJson? (v : Json) : Option (SortedMap Operand (List Operand)) := do
  return SortedMap.ofList (← v.list? (Json.pair? Operand.ofJson? (Json.list? Operand.ofJson?)))

def toJson (p : Program) : Json := .object [
  ("bytecode", p.bytecode.toJson),
  ("literals", p.literals.toJson),
  ("work", p.work.toJson),
  ("debug", p.debug.toJson),
  ("externals", Json.ofList ExternalVariable.toJson p.externals),
  ("debug_mirrors", mirrorsToJson p.debugMirrors),
  ("pin_paths", Json.ofMap Operand.toJson p.pinPaths)]

def fields : List String :=
  ["bytecode", "literals", "work", "debug", "externals", "debug_mirrors", "pin_paths"]

def ofJson? (v : Json) : Option Program := do
  let r ← v.record? fields 7
  return {
    bytecode := ← r.required "bytecode" Bytecode.ofJson?
    literals := ← r.required "literals" MemoryTable.ofJson?
    work := ← r.required "work" MemoryTable.ofJson?
    debug := ← r.required "debug" MemoryTable.ofJson?
    externals := ← r.required "externals" (Json.list? ExternalVariable.ofJson?)
    debugMirrors := ← r.required "debug_mirrors" mirrorsOfJson?
    pinPaths := ← r.required "pin_paths" (Json.map? Operand.ofJson?) }

end Program
end NodeGraph
