import NodeGraph.Text.Blank
import NodeGraph.Text.Split

/-!
# Parenthesised lists in text

Default values of structures and arrays are written as `(1, 2, 3)` or `(X=1,Y=(A=2))`. `splitList?`
cuts such a text at its top-level commas: those outside nested parentheses and outside double-quoted
strings, in which a backslash escapes the next character.
-/
namespace NodeGraph.ListText

/-- Where a scan stands with respect to double quotes. -/
inductive Quoting where
  | outside
  | inside
  /-- Inside, behind a backslash. -/
  | escape
deriving DecidableEq, Repr

/-- The state of a scan: open parentheses and quoting. -/
structure Scan where
  depth : Nat := 0
  quoting : Quoting := .outside
deriving DecidableEq, Repr

namespace Scan

/-- Whether everything opened has been closed. -/
def isClosed (s : Scan) : Bool := s.depth = 0 && s.quoting = .outside

/-- The state behind a character; `none` for a closing parenthesis without an opening one. -/
def step? (s : Scan) (c : Char) : Option Scan :=
  match s.quoting with
  | .escape => some { s with quoting := .inside }
  | .inside =>
    if c = '\\' then some { s with quoting := .escape }
    else if c = '"' then some { s with quoting := .outside }
    else some s
  | .outside =>
    if c = '"' then some { s with quoting := .inside }
    else if c = '(' then some { s with depth := s.depth + 1 }
    else if c = ')' then
      match s.depth with
      | 0 => none
      | depth + 1 => some { s with depth }
    else some s

/-- Whether a character separates two items here. -/
def isSeparator (s : Scan) (c : Char) : Bool := c = ',' && s.isClosed

end Scan

/-- The texts between the top-level commas, as they stand; `none` if the text is not balanced. -/
def splitFrom (s : Scan) : List Char → Option (List (List Char))
  | [] => if s.isClosed then some [[]] else none
  | c :: cs =>
    match s.step? c with
    | none => none
    | some next =>
      if s.isSeparator c then (splitFrom next cs).map ([] :: ·)
      else (splitFrom next cs).map (Text.consHead c)

/-- The text between the outer parentheses. -/
def inner? : List Char → Option (List Char)
  | '(' :: rest => if rest.getLast? = some ')' then some rest.dropLast else none
  | _ => none

/-- The trimmed items of a parenthesised list. Blank text and `()` hold no items. -/
def splitList? (text : List Char) : Option (List (List Char)) :=
  let text := Text.trim text
  if text.isEmpty then some []
  else do
    let inner ← inner? text
    if (Text.trim inner).isEmpty then some []
    else return (← splitFrom {} inner).map Text.trim

/-- The two sides of `Key=Value`, cut at the first `=` and trimmed. The key may not be empty, nor open
a parenthesis or a string. -/
def splitAssignment? (item : List Char) : Option (List Char × List Char) :=
  match item.dropWhile (· ≠ '=') with
  | [] => none
  | _ :: value =>
    let key := Text.trim (item.takeWhile (· ≠ '='))
    if key.isEmpty || '(' ∈ key || '"' ∈ key then none else some (key, Text.trim value)

end NodeGraph.ListText
