/-!
# Cutting text

Texts are cut as lists of characters. `pieces` cuts at every separator and always yields at least one
piece, `afterLast` keeps what follows the last separator. `hanging` sets the lines of a text under a
heading.
-/
namespace NodeGraph.Text

/-- Puts a character in front of the first piece. -/
def consHead (c : Char) : List (List Char) → List (List Char)
  | [] => [[c]]
  | piece :: rest => (c :: piece) :: rest

/-- The parts of a text between the separators, empty parts included. -/
def pieces (sep : Char) : List Char → List (List Char)
  | [] => [[]]
  | c :: cs => if c = sep then [] :: pieces sep cs else consHead c (pieces sep cs)

/-- What follows the last separator, or the whole text if there is none. -/
def afterLast (sep : Char) (cs : List Char) : List Char :=
  (cs.reverse.takeWhile (· ≠ sep)).reverse

/-- The texts joined by `sep`. -/
def joined (sep : String) : List String → String
  | [] => ""
  | [s] => s
  | s :: t :: rest => s ++ sep ++ joined sep (t :: rest)

/-- The text `s`, preceded by blanks up to `width` characters. -/
def padLeft (width : Nat) (s : String) : String :=
  String.ofList (List.replicate (width - s.length) ' ') ++ s

/-- A line without the spaces at its end. No other character is dropped. -/
def dropSpacesRight (line : List Char) : List Char := (line.reverse.dropWhile (· = ' ')).reverse

/-- The lines of a text without the spaces at their ends: the first follows `heading` and each of the
others `indent`, which both stay whole, also in front of an empty line. -/
def hanging (heading indent text : String) : String :=
  heading ++ joined ("\n" ++ indent)
    ((pieces '\n' text.toList).map fun line => String.ofList (dropSpacesRight line))

/-- A text repeated `n` times. -/
def repeated (s : String) : Nat → String
  | 0 => ""
  | n + 1 => s ++ repeated s n

end NodeGraph.Text
