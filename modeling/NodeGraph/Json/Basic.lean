/-!
# JSON values

Objects keep their members in the order of the text, repeated keys included, and numbers keep the
distinction between plain digits and every other spelling: `1` is a natural number, `1.0`, `1e0` and
`-0` are not.
-/
namespace NodeGraph

inductive Json where
  | null
  | bool (b : Bool)
  /-- A number written as digits only. -/
  | natural (n : Nat)
  /-- Any other number, as written. -/
  | number (lexeme : String)
  | string (text : String)
  | array (items : List Json)
  | object (members : List (String × Json))
  /-- Well-formed text without a value: a string with half a surrogate pair, or an object with such a
  string as a key. It can be passed over but not read. -/
  | unreadable
deriving Inhabited, Repr

namespace Json

/-- A value that may be absent, `null` when it is. -/
def ofOption {α : Type} (f : α → Json) : Option α → Json
  | none => null
  | some a => f a

def ofList {α : Type} (f : α → Json) (items : List α) : Json := array (items.map f)

end Json
end NodeGraph
