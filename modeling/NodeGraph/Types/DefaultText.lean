import NodeGraph.Types.Basic
import NodeGraph.Types.ListText

/-!
# Default values in text

Every value of a type has a canonical text. `decode` turns the text a user wrote into it: a structure
lists all its fields in order of declaration, those left out with their zero values, an enumeration is
the name of its variant, and a scalar is kept as written. The nesting of types is bounded by their
number, unless a type contains itself.
-/
namespace NodeGraph.TypeRegistry

/-- The text `(A=1,B=2)` of a structure. -/
def structText (fields : List (StructField × String)) : String :=
  "(" ++ Text.joined "," (fields.map fun (field, value) => field.name ++ "=" ++ value) ++ ")"

/-- The canonical text of the zero value, for types nested less than `depth` deep. -/
def zeroWithin (r : TypeRegistry) : Nat → String → Typed String
  | 0, typeName => throw (m := Checked) (Fault.endlessType typeName)
  | depth + 1, typeName => do
    let info ← r.lookup typeName
    match info.kind with
    | .bool => return "False"
    | .int32 => return "0"
    | .float | .double => return "0.000000"
    | .name => return "None"
    | .string | .execute => return ""
    | .struct fields =>
      let values ← fields.mapM fun field => return (field, ← r.zeroWithin depth field.typeName)
      return structText values
    | .enum variants => return variants.headD ""

/-- One more than the number of types bounds their nesting. -/
def depthBound (r : TypeRegistry) : Nat := r.types.length + 1

/-- The canonical text of the zero value of a type. -/
def zeroValue (r : TypeRegistry) (typeName : String) : Typed String :=
  r.zeroWithin r.depthBound typeName

/-! ## Enumerations -/

/-- What stands before the first `::`. -/
def beforeColons : List Char → List Char
  | [] => []
  | ':' :: ':' :: _ => []
  | c :: cs => c :: beforeColons cs

/-- The part `Variant` of `Type::Variant`: what follows the last `::`. -/
def variantName (text : List Char) : List Char := (beforeColons text.reverse).reverse

/-- An index written as digits, with an optional plus sign. -/
def index? (text : List Char) : Option Nat :=
  let digits := match text with
    | '+' :: rest => rest
    | _ => text
  if digits.isEmpty || digits.any (fun c => c < '0' || '9' < c) then none
  else
    let n := Nat.ofDigitChars 10 digits 0
    if n < addressLimit then some n else none

/-- The variant a text names or numbers. -/
def variant? (variants : List String) (text : List Char) : Option String :=
  let given := variantName text
  match variants.find? (·.toList = given) with
  | some v => some v
  | none => (index? given).bind (variants[·]?)

/-! ## Decoding -/

def invalidDefault {α : Type} (typeName : String) (text : List Char) (reason : String) : Typed α :=
  throw (.invalidDefault typeName (String.ofList text) reason)

/-- The position and type of the field that an item `Member=Value` names, with the text of its value;
or what is wrong with the item. -/
def memberOf (fields : List StructField) (item : List Char) :
    Except String (Nat × String × List Char) :=
  match ListText.splitAssignment? item with
  | none => .error "expected Member=Value"
  | some (key, value) =>
    match fields.zipIdx.find? (·.1.name.toList = key) with
    | none => .error "unknown member"
    | some (field, position) => .ok (position, field.typeName, value)

/-- The last value given to the field at a position. -/
def givenValue (values : List (Nat × String)) (position : Nat) : Option String :=
  (values.reverse.find? (·.1 = position)).map (·.2)

/-- The canonical text of a value of a type nested less than `depth` deep. -/
def decodeWithin (r : TypeRegistry) : Nat → String → List Char → Typed String
  | 0, typeName, _ => throw (m := Checked) (Fault.endlessType typeName)
  | depth + 1, typeName, text => do
    let info ← r.lookup typeName
    let text := Text.trim text
    if text.isEmpty then r.zeroWithin (depth + 1) typeName
    else
      match info.kind with
      | .struct fields =>
        match ListText.splitList? text with
        | none => invalidDefault typeName text "expected a parenthesized member list"
        | some items =>
          let values ← items.mapM fun item =>
            match memberOf fields item with
            | .error reason => invalidDefault typeName text reason
            | .ok (position, fieldType, value) => do
              return (position, ← r.decodeWithin depth fieldType value)
          let complete ← fields.zipIdx.mapM fun (field, position) =>
            match givenValue values position with
            | some value => return (field, value)
            | none => return (field, ← r.zeroWithin depth field.typeName)
          return structText complete
      | .enum variants =>
        match variant? variants text with
        | some v => return v
        | none => invalidDefault typeName text "unknown variant"
      | _ => return String.ofList text

/-- The canonical text of a value; blank text is the zero value. -/
def decode (r : TypeRegistry) (typeName text : String) : Typed String :=
  r.decodeWithin r.depthBound typeName text.toList

/-- The canonical texts of the elements of an array. -/
def decodeArray (r : TypeRegistry) (typeName text : String) : Typed (List String) :=
  match ListText.splitList? text.toList with
  | none => throw (.invalidDefault typeName text "expected a parenthesized element list")
  | some items => items.mapM (r.decodeWithin r.depthBound typeName)

end NodeGraph.TypeRegistry
