import NodeGraph.Json.Basic

/-!
# Writing JSON

Two layouts of one printer: `pretty` puts every item on a line of its own, indented by two blanks per
level, and `compact` writes no blanks at all. Empty arrays and objects are `[]` and `{}` in both.
-/
namespace NodeGraph.Json

/-! ## Strings -/

def hexDigit (n : Nat) : Char := Nat.digitChar n

/-- A character inside a string: quotes, backslashes and control characters are escaped. -/
def escaped (c : Char) : List Char :=
  if c = '"' then ['\\', '"']
  else if c = '\\' then ['\\', '\\']
  else if c = '\x08' then ['\\', 'b']
  else if c = '\t' then ['\\', 't']
  else if c = '\n' then ['\\', 'n']
  else if c = '\x0c' then ['\\', 'f']
  else if c = '\r' then ['\\', 'r']
  else if c.toNat < 0x20 then ['\\', 'u', '0', '0', hexDigit (c.toNat / 16), hexDigit (c.toNat % 16)]
  else [c]

def quoted (text : String) : List Char := '"' :: text.toList.flatMap escaped ++ ['"']

/-! ## Layouts -/

structure Layout where
  /-- What stands before an item, or a closing bracket, at a nesting depth. -/
  lineStart : Nat → List Char
  /-- What stands between a key and its value. -/
  colon : List Char

def Layout.pretty : Layout := ⟨fun depth => '\n' :: List.replicate (2 * depth) ' ', [':', ' ']⟩

def Layout.compact : Layout := ⟨fun _ => [], [':']⟩

mutual

def render (layout : Layout) (depth : Nat) : Json → List Char
  | null => ['n', 'u', 'l', 'l']
  | bool true => ['t', 'r', 'u', 'e']
  | bool false => ['f', 'a', 'l', 's', 'e']
  | natural n => Nat.toDigits 10 n
  | number lexeme => lexeme.toList
  | string text => quoted text
  | array [] => ['[', ']']
  | array (item :: items) =>
    '[' :: layout.lineStart (depth + 1) ++ render layout (depth + 1) item ++
      renderItems layout (depth + 1) items ++ layout.lineStart depth ++ [']']
  | object [] => ['\x7b', '\x7d']
  | object (member :: members) =>
    '\x7b' :: layout.lineStart (depth + 1) ++ renderMember layout (depth + 1) member ++
      renderMembers layout (depth + 1) members ++ layout.lineStart depth ++ ['\x7d']
  | unreadable => ['n', 'u', 'l', 'l']

/-- The items behind the first one. -/
def renderItems (layout : Layout) (depth : Nat) : List Json → List Char
  | [] => []
  | item :: items =>
    ',' :: layout.lineStart depth ++ render layout depth item ++ renderItems layout depth items

def renderMember (layout : Layout) (depth : Nat) : String × Json → List Char
  | (key, value) => quoted key ++ layout.colon ++ render layout depth value

/-- The members behind the first one. -/
def renderMembers (layout : Layout) (depth : Nat) : List (String × Json) → List Char
  | [] => []
  | member :: members =>
    ',' :: layout.lineStart depth ++ renderMember layout depth member ++
      renderMembers layout depth members

end

def pretty (v : Json) : String := String.ofList (render .pretty 0 v)

def compact (v : Json) : String := String.ofList (render .compact 0 v)

end NodeGraph.Json
