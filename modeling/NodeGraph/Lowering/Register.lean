import NodeGraph.Lowering.Basic
import NodeGraph.Types.DefaultText

/-!
# Registers

A register is made from a type and a default text, once for each key. The key says whose storage it
is:

| storage                | key                                          | space   |
|------------------------|----------------------------------------------|---------|
| value of a pin         | path of the least pin it shares storage with | work    |
| constant of a pin      | path of the pin, then `::Const` or `::IO`    | literal |
| watch of a pin         | path as for its value, then `::Debug`        | debug   |
| parameter of the graph | `Parameter::name`                            | work    |
| local variable         | call sites, then `Local::name`               | work    |
| default of a local     | `Function::f::Local::name::Const`            | literal |
| label of a case        | `Const::int32::n`                            | literal |
| outcome of comparisons | `Scratch::Compare`                           | work    |
-/
namespace NodeGraph

/-! ## Making registers -/

/-- The shape of a register before it is made. -/
structure RegisterSpec where
  typeName : String
  isArray : Bool := false
  defaultText : String := ""
  /-- The number of elements of an array that cannot grow. -/
  fixedCount : Option Nat := none
  /-- The pin to blame if the register cannot be made. -/
  pin : Option PinId := none
deriving DecidableEq, Repr

/-- The first `count` values, with `fill` for those that are missing. -/
def resized (count : Nat) (fill : String) (values : List String) : List String :=
  values.take count ++ List.replicate (count - values.length) fill

/-- The register of a name and a shape. -/
def TypeRegistry.buildRegister (r : TypeRegistry) (name : String) (spec : RegisterSpec) :
    Typed Register := do
  let info ← r.lookup spec.typeName
  let register : Register :=
    { name, typeName := info.name, elementCount := 1, isArray := spec.isArray, isDynamic := false,
      defaultValues := [], size := info.size, alignment := info.alignment }
  if spec.isArray then
    let values ← r.decodeArray spec.typeName spec.defaultText
    match spec.fixedCount with
    | some count =>
      let zero ← r.zeroValue spec.typeName
      return { register with elementCount := count, defaultValues := resized count zero values }
    | none =>
      return { register with
        elementCount := values.length, isDynamic := true, defaultValues := values }
  else
    return { register with defaultValues := [← r.decode spec.typeName spec.defaultText] }

/-- The register that collects the values of a watched pin: an array that starts with one element. -/
def TypeRegistry.buildWatch (r : TypeRegistry) (name typeName : String) : Typed Register := do
  let info ← r.lookup typeName
  let zero ← r.zeroValue typeName
  return { name, typeName := info.name, elementCount := 1, isArray := true, isDynamic := true,
           defaultValues := [zero], size := info.size, alignment := info.alignment }

namespace Lowering

/-! ## Tables -/

namespace Storage

/-- The table of a memory space; external variables have none. -/
def table? (s : Storage) : MemorySpace → Option MemoryTable
  | .literal => some s.literals
  | .work => some s.work
  | .debug => some s.debug
  | .external => none

/-- Replaces the table of a memory space. -/
def setTable (s : Storage) : MemorySpace → MemoryTable → Storage
  | .literal, t => { s with literals := t }
  | .work, t => { s with work := t }
  | .debug, t => { s with debug := t }
  | .external, _ => s

/-- Adds a register to a memory space, under its name as key. -/
def addRegister (s : Storage) (space : MemorySpace) (r : Register) : Option (Storage × Operand) := do
  let table ← s.table? space
  let (table, index) := table.addRegister r
  let operand : Operand := { memory := space, index }
  let s := s.setTable space table
  return ({ s with keyed := (r.name, operand) :: s.keyed }, operand)

/-- The operand of a member of a register. -/
def addPath (s : Storage) (base : Operand) (segments : String) : Option (Storage × Operand) := do
  let table ← s.table? base.memory
  let (table, path) := table.internPath base.index segments
  return (s.setTable base.memory table, { base with propertyPath := some path })

end Storage

/-! ## Allocation -/

/-- A type error becomes an error about the register of that key. -/
def typed {α : Type} (pin : Option PinId) (key : String) (result : Typed α) : Attempt α := do
  match ← (result.run : Checked (Except TypeError α)) with
  | .ok a => return a
  | .error cause => throw (.type pin key cause)

/-- The operand registered under a key, or else that of a new register. -/
def allocateWith (key : String) (space : MemorySpace) (pin : Option PinId)
    (build : Typed Register) : Attempt Operand := do
  match (← get).storage.keyed.lookup key with
  | some operand => return operand
  | none =>
    let register ← typed pin key build
    match (← get).storage.addRegister space register with
    | none => throw (.noStorage space)
    | some (storage, operand) =>
      modify fun s => { s with storage := storage }
      return operand

/-- The operand of the register with a key, which is made if it does not exist. -/
def Context.allocate (cx : Context) (key : String) (space : MemorySpace) (spec : RegisterSpec) :
    Attempt Operand :=
  allocateWith key space spec.pin (cx.env.types.buildRegister key spec)

/-- The constant that labels a case of a selection. -/
def Context.caseLabel (cx : Context) (value : Nat) : Attempt Operand :=
  cx.allocate s!"Const::int32::{value}" .literal { typeName := "int32", defaultText := toString value }

/-- The register that holds the outcome of the comparisons of a selection. -/
def Context.comparisonScratch (cx : Context) : Attempt Operand :=
  cx.allocate "Scratch::Compare" .work { typeName := "bool" }

end Lowering
end NodeGraph
