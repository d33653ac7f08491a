/-!
# The function catalog

Functions that compiled code may call, numbered in order of registration. Registering a name again
replaces its signature and keeps its number.
-/
namespace NodeGraph

inductive ParameterDirection where
  | input
  | output
  | inOut
  | hidden
deriving DecidableEq, Repr, Inhabited

namespace ParameterDirection

def all : List ParameterDirection := [input, output, inOut, hidden]

def name : ParameterDirection → String
  | input => "Input"
  | output => "Output"
  | inOut => "IO"
  | hidden => "Hidden"

end ParameterDirection

structure Parameter where
  name : String
  direction : ParameterDirection
deriving DecidableEq, Repr, Inhabited

structure FunctionSignature where
  name : String
  /-- The parameters, in the order operands are passed. -/
  parameters : List Parameter
deriving DecidableEq, Repr, Inhabited

structure Catalog where
  functions : List FunctionSignature := []
deriving DecidableEq, Repr, Inhabited

namespace Catalog

/-- The number of the function of that name. -/
def index? (c : Catalog) (name : String) : Option Nat := c.functions.findIdx? (·.name = name)

def get? (c : Catalog) (index : Nat) : Option FunctionSignature := c.functions[index]?

/-- The number and the signature of the function of that name. -/
def find? (c : Catalog) (name : String) : Option (Nat × FunctionSignature) := do
  let index ← c.index? name
  return (index, ← c.get? index)

theorem find?_eq_some {c : Catalog} {name : String} {index : Nat} {f : FunctionSignature} :
    c.find? name = some (index, f) ↔ c.index? name = some index ∧ c.get? index = some f := by
  simp only [find?, Option.pure_def, Option.bind_eq_bind, Option.bind_eq_some_iff, Option.some.injEq,
    Prod.mk.injEq]
  constructor
  · rintro ⟨i, hi, g, hg, rfl, rfl⟩
    exact ⟨hi, hg⟩
  · rintro ⟨hi, hg⟩
    exact ⟨index, hi, f, hg, rfl, rfl⟩

def register (c : Catalog) (f : FunctionSignature) : Catalog × Nat :=
  match c.index? f.name with
  | some index => (⟨c.functions.set index f⟩, index)
  | none => (⟨c.functions ++ [f]⟩, c.functions.length)

def ofList (functions : List FunctionSignature) : Catalog :=
  functions.foldl (fun c f => (c.register f).1) {}

end Catalog
end NodeGraph
