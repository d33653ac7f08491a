import NodeGraph.Fault
import NodeGraph.Graph.PinName

/-!
# Value types

A registry starts with seven built-in types and grows by definitions. A structure lays its fields out
in order, each at a multiple of its alignment; sizes are words, and a size beyond a word is a fault.
Defining a name again replaces the type and keeps its place.
-/
namespace NodeGraph

structure StructField where
  name : String
  typeName : String
deriving DecidableEq, Repr, Inhabited

inductive TypeKind where
  | bool
  | int32
  | float
  | double
  | name
  | string
  | execute
  | struct (fields : List StructField)
  | enum (variants : List String)
deriving DecidableEq, Repr, Inhabited

structure TypeDefinition where
  name : String
  kind : TypeKind
deriving DecidableEq, Repr, Inhabited

/-- A registered type. -/
structure TypeInfo where
  name : String
  kind : TypeKind
  size : Nat
  alignment : Nat
deriving DecidableEq, Repr, Inhabited

inductive TypeError where
  | unknownType (name : String)
  | unknownFieldType (typeName field fieldType : String)
  | invalidDefault (typeName text reason : String)
deriving DecidableEq, Repr

def TypeError.message : TypeError → String
  | unknownType name => "unknown type '" ++ name ++ "'"
  | unknownFieldType typeName field fieldType =>
    "field '" ++ field ++ "' of '" ++ typeName ++ "' has unknown type '" ++ fieldType ++ "'"
  | invalidDefault typeName text reason =>
    "invalid default value '" ++ text ++ "' for type '" ++ typeName ++ "': " ++ reason

/-- Results that a type error or a fault may take the place of. -/
abbrev Typed := ExceptT TypeError Checked

structure TypeRegistry where
  types : List TypeInfo
deriving DecidableEq, Repr

namespace TypeRegistry

/-- The registry of the built-in types. -/
def builtin : TypeRegistry where
  types := [
    ⟨"bool", .bool, 1, 1⟩,
    ⟨"int32", .int32, 4, 4⟩,
    ⟨"float", .float, 4, 4⟩,
    ⟨"double", .double, 8, 8⟩,
    ⟨"name", .name, 8, 8⟩,
    ⟨"string", .string, 24, 8⟩,
    ⟨executeType, .execute, 8, 8⟩]

instance : Inhabited TypeRegistry := ⟨builtin⟩

def get? (r : TypeRegistry) (name : String) : Option TypeInfo := r.types.find? (·.name = name)

def lookup (r : TypeRegistry) (name : String) : Typed TypeInfo :=
  match r.get? name with
  | some info => return info
  | none => throw (.unknownType name)

/-- Puts a type at the place of its name, or at the end. -/
def insert (r : TypeRegistry) (info : TypeInfo) : TypeRegistry :=
  if (r.get? info.name).isSome then
    ⟨r.types.map fun t => if t.name = info.name then info else t⟩
  else ⟨r.types ++ [info]⟩

/-! ## Layout -/

/-- The least multiple of `alignment` that is not below `n`. -/
def alignUp (n alignment : Nat) : Nat := (n + alignment - 1) / alignment * alignment

/-- Size and alignment behind one more field. -/
def addField (size alignment : Nat) (field : TypeInfo) : Checked (Nat × Nat) := do
  let offset ← Checked.fit wordLimit (alignUp size field.alignment)
  let size ← Checked.fit wordLimit (offset + field.size)
  return (size, max alignment field.alignment)

/-- Size and alignment of a structure from those of its first fields. -/
def structLayout (r : TypeRegistry) (typeName : String) :
    Nat → Nat → List StructField → Typed (Nat × Nat)
  | size, alignment, [] => do
    let size ← Checked.fit wordLimit (alignUp size alignment)
    return (size, alignment)
  | size, alignment, field :: fields => do
    match r.get? field.typeName with
    | none => throw (.unknownFieldType typeName field.name field.typeName)
    | some info =>
      let (size, alignment) ← addField size alignment info
      r.structLayout typeName size alignment fields

/-- Size and alignment of a definition. A scalar keeps the layout of the type it replaces. -/
def layout (r : TypeRegistry) (d : TypeDefinition) : Typed (Nat × Nat) :=
  match d.kind with
  | .struct fields => r.structLayout d.name 0 1 fields
  | .enum _ => return (1, 1)
  | _ =>
    match r.get? d.name with
    | some info => return (info.size, info.alignment)
    | none => return (0, 1)

/-! ## Definitions -/

/-- Steps on a registry, which is left behind by a type error, too. -/
abbrev Defining := ExceptT TypeError (StateT TypeRegistry Checked)

/-- What can be told from the registry as it is. -/
def consult {α : Type} (question : TypeRegistry → Typed α) : Defining α :=
  ExceptT.mk fun r => return (← (question r).run, r)

/-- Adds a definition, whose fields must be of registered types, and looks its type up. -/
def define (d : TypeDefinition) : Defining TypeInfo := do
  let (size, alignment) ← consult (·.layout d)
  modify (·.insert ⟨d.name, d.kind, size, alignment⟩)
  consult (·.lookup d.name)

/-- The registry with one more definition, and its type. -/
def register (r : TypeRegistry) (d : TypeDefinition) : Typed (TypeRegistry × TypeInfo) := do
  let (answer, r) ← (define d).run.run r
  return (r, ← answer)

/-- Adds definitions in order, up to the first error. -/
def registerAll (r : TypeRegistry) : List TypeDefinition → Typed TypeRegistry
  | [] => return r
  | d :: ds => do
    let (r, _) ← r.register d
    r.registerAll ds

end TypeRegistry
end NodeGraph
