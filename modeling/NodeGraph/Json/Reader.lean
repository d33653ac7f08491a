import NodeGraph.Json.Basic
import NodeGraph.Json.Token

/-!
# Reading JSON

The grammar of values over tokens. A value is read together with the tokens behind it; nothing may
follow the one value of a text.
-/
namespace NodeGraph.Json

/-- The object of a list of members, if every key has a text. -/
def ofMembers (members : List (Option String × Json)) : Json :=
  match members.mapM fun m => m.1.map (·, m.2) with
  | some named => object named
  | none => unreadable

mutual

/-- Takes one value. The first argument bounds the nesting and is never reached for a list of as many
tokens. -/
def readValue? : Nat → List Token → Option (Json × List Token)
  | 0, _ => none
  | depth + 1, tokens =>
    match tokens with
    | .null :: rest => some (null, rest)
    | .bool b :: rest => some (bool b, rest)
    | .natural n :: rest => some (natural n, rest)
    | .number lexeme :: rest => some (number lexeme, rest)
    | .string (some text) :: rest => some (string text, rest)
    | .string none :: rest => some (unreadable, rest)
    | .leftBracket :: .rightBracket :: rest => some (array [], rest)
    | .leftBracket :: rest => (readItems? depth rest).map fun (items, tail) => (array items, tail)
    | .leftBrace :: .rightBrace :: rest => some (object [], rest)
    | .leftBrace :: rest =>
      (readMembers? depth rest).map fun (members, tail) => (ofMembers members, tail)
    | _ => none

/-- Takes the items of an array up to its end. -/
def readItems? : Nat → List Token → Option (List Json × List Token)
  | 0, _ => none
  | depth + 1, tokens =>
    match readValue? depth tokens with
    | some (v, .comma :: rest) => (readItems? depth rest).map fun (vs, tail) => (v :: vs, tail)
    | some (v, .rightBracket :: rest) => some ([v], rest)
    | _ => none

/-- Takes the members of an object up to its end. -/
def readMembers? : Nat → List Token → Option (List (Option String × Json) × List Token)
  | 0, _ => none
  | depth + 1, tokens =>
    match tokens with
    | .string key :: .colon :: rest =>
      match readValue? depth rest with
      | some (v, .comma :: rest) =>
        (readMembers? depth rest).map fun (ms, tail) => ((key, v) :: ms, tail)
      | some (v, .rightBrace :: rest) => some ([(key, v)], rest)
      | _ => none
    | _ => none

end

/-- The value of a text. -/
def parse? (text : String) : Option Json := do
  let tokens ← tokens? text.toList
  match ← readValue? (tokens.length + 1) tokens with
  | (v, []) => some v
  | _ => none

end NodeGraph.Json
