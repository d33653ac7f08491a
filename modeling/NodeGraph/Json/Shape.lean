import NodeGraph.Fault
import NodeGraph.Json.Basic
import NodeGraph.SortedMap

/-!
# Shapes of JSON values

How records, variants, lists and maps are told from JSON values. A record is an object with its fields
in any order or an array with its fields in theirs; a variant is its name or an object with its name as
the only key.
-/
namespace NodeGraph.Json

/-! ## Scalars -/

def bool? : Json → Option Bool
  | bool b => some b
  | _ => none

/-- A natural number that fits in a word. -/
def word? : Json → Option Nat
  | natural n => if n < wordLimit then some n else none
  | _ => none

def string? : Json → Option String
  | string text => some text
  | _ => none

/-- Either `null` or a value that `f` reads. -/
def nullable? {α : Type} (f : Json → Option α) : Json → Option (Option α)
  | null => some none
  | v => (f v).map some

/-! ## Lists and maps -/

def list? {α : Type} (f : Json → Option α) : Json → Option (List α)
  | array items => items.mapM f
  | _ => none

def pair? {α β : Type} (f : Json → Option α) (g : Json → Option β) : Json → Option (α × β)
  | array [a, b] => do return (← f a, ← g b)
  | _ => none

/-- A map from text: an object, where a later member replaces an earlier one with the same key. -/
def map? {α : Type} (f : Json → Option α) : Json → Option (SortedMap String α)
  | object members => do
    return SortedMap.ofList (← members.mapM fun m => (f m.2).map (m.1, ·))
  | _ => none

def ofMap {α : Type} (f : α → Json) (m : SortedMap String α) : Json :=
  object (m.toList.map fun e => (e.1, f e.2))

/-! ## Records -/

/-- The fields that were given, by name. -/
abbrev Record := List (String × Json)

/-- The fields of a record. An object may hold other members, which are ignored, but no field twice.
An array holds the fields in order, of which the first `least` must be there. -/
def record? (fields : List String) (least : Nat) : Json → Option Record
  | array items =>
    if least ≤ items.length && items.length ≤ fields.length then some (fields.zip items) else none
  | object members =>
    if fields.all fun f => members.countP (·.1 = f) ≤ 1 then some members else none
  | _ => none

def Record.field? (r : Record) (name : String) : Option Json := (r.find? (·.1 = name)).map (·.2)

/-- A field that must be there. -/
def Record.required {α : Type} (r : Record) (name : String) (f : Json → Option α) : Option α := do
  f (← r.field? name)

/-- A field with a default. -/
def Record.optional {α : Type} (r : Record) (name : String) (f : Json → Option α) (default : α) :
    Option α :=
  match r.field? name with
  | none => some default
  | some v => f v

/-! ## Variants -/

/-- The name of a variant and its payload. -/
def variant? : Json → Option (String × Option Json)
  | string name => some (name, none)
  | object [(name, payload)] => some (name, some payload)
  | _ => none

/-- A variant without a payload, among named ones. -/
def choice? {α : Type} (all : List α) (name : α → String) (v : Json) : Option α := do
  match ← variant? v with
  | (given, none) => all.find? (name · = given)
  | (given, some null) => all.find? (name · = given)
  | _ => none

end NodeGraph.Json
