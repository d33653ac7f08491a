import NodeGraph.Catalog
import NodeGraph.Program.Basic
import NodeGraph.Types.Basic

/-!
# Environments

What a tree is compiled against: the functions it may call, the types of its pins and the variables of
the host.
-/
namespace NodeGraph

structure Environment where
  catalog : Catalog := {}
  types : TypeRegistry := .builtin
  externals : List ExternalVariable := []
deriving DecidableEq, Repr

namespace Environment

/-- The position of the external variable of that name. -/
def externalIndex? (env : Environment) (name : String) : Option Nat :=
  env.externals.findIdx? (·.name = name)

def isExternal (env : Environment) (name : String) : Bool := (env.externalIndex? name).isSome

end Environment
end NodeGraph
