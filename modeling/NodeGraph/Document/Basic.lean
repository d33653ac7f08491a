import NodeGraph.Compile

/-!
# Documents

A document holds a tree and all that it is compiled against.
-/
namespace NodeGraph

structure Document where
  types : List TypeDefinition := []
  functions : List FunctionSignature := []
  externals : List ExternalVariable := []
  /-- The options to compile with unless others are given. -/
  options : Option CompileOptions := none
  tree : Tree := {}
deriving DecidableEq, Repr

namespace Document

/-- The built-in types and those of the document, defined in order. -/
def registry (d : Document) : Typed TypeRegistry := TypeRegistry.builtin.registerAll d.types

def catalog (d : Document) : Catalog := Catalog.ofList d.functions

/-- The message for an error in the types of a document. -/
def typeErrorMessage (e : TypeError) : String := "invalid type definition: " ++ e.message

/-- What the tree is compiled against. -/
def environment (d : Document) : Typed Environment := do
  return { catalog := d.catalog, types := ← d.registry, externals := d.externals }

end Document
end NodeGraph
