/-!
# JSON tokens

The lexical layer of JSON: blanks are dropped, strings are unescaped, numbers are recognised. A string
is first read as a sequence of units, because one character outside the basic plane is written as two
`\u` escapes.
-/
namespace NodeGraph.Json

inductive Token where
  | leftBrace
  | rightBrace
  | leftBracket
  | rightBracket
  | comma
  | colon
  | null
  | bool (b : Bool)
  | natural (n : Nat)
  | number (lexeme : String)
  /-- A string; `none` if an escape in it is half a surrogate pair. -/
  | string (text : Option String)
deriving DecidableEq, Repr

def isSpace (c : Char) : Bool := c = ' ' || c = '\n' || c = '\t' || c = '\r'

/-! ## Strings -/

/-- A character of a string as written: itself, or a `\u` escape. -/
inductive StringUnit where
  | plain (c : Char)
  | code (n : Nat)
deriving DecidableEq, Repr

def hexValue? (c : Char) : Option Nat :=
  if '0' ≤ c && c ≤ '9' then some (c.toNat - '0'.toNat)
  else if 'a' ≤ c && c ≤ 'f' then some (c.toNat - 'a'.toNat + 10)
  else if 'A' ≤ c && c ≤ 'F' then some (c.toNat - 'A'.toNat + 10)
  else none

def hexCode? (a b c d : Char) : Option Nat := do
  return ((← hexValue? a) * 16 + (← hexValue? b)) * 256 + ((← hexValue? c) * 16 + (← hexValue? d))

/-- The character a one-letter escape stands for. -/
def shortEscape? : Char → Option Char
  | '"' => some '"'
  | '\\' => some '\\'
  | '/' => some '/'
  | 'b' => some '\x08'
  | 'f' => some '\x0c'
  | 'n' => some '\n'
  | 'r' => some '\r'
  | 't' => some '\t'
  | _ => none

/-- The units up to the closing quote, and the text behind it. -/
def stringUnits? : List Char → Option (List StringUnit × List Char)
  | [] => none
  | '"' :: rest => some ([], rest)
  | '\\' :: 'u' :: a :: b :: c :: d :: rest => do
    let n ← hexCode? a b c d
    let (units, tail) ← stringUnits? rest
    return (.code n :: units, tail)
  | '\\' :: e :: rest => do
    let c ← shortEscape? e
    let (units, tail) ← stringUnits? rest
    return (.plain c :: units, tail)
  | c :: rest =>
    if c.toNat < 0x20 || c = '\\' then none
    else do
      let (units, tail) ← stringUnits? rest
      return (.plain c :: units, tail)

def isHighSurrogate (n : Nat) : Bool := 0xD800 ≤ n && n < 0xDC00
def isLowSurrogate (n : Nat) : Bool := 0xDC00 ≤ n && n < 0xE000

/-- The text of a sequence of units. -/
def unitsText? : List StringUnit → Option (List Char)
  | [] => some []
  | .plain c :: rest => (unitsText? rest).map (c :: ·)
  | .code hi :: .code lo :: rest =>
    if isHighSurrogate hi then
      if isLowSurrogate lo then
        (unitsText? rest).map (Char.ofNat (0x10000 + (hi - 0xD800) * 0x400 + (lo - 0xDC00)) :: ·)
      else none
    else if isLowSurrogate hi then none
    else (unitsText? (.code lo :: rest)).map (Char.ofNat hi :: ·)
  | .code n :: rest =>
    if isHighSurrogate n || isLowSurrogate n then none
    else (unitsText? rest).map (Char.ofNat n :: ·)

/-! ## Numbers -/

def isDigit (c : Char) : Bool := '0' ≤ c && c ≤ '9'

/-- Takes a nonempty run of digits. -/
def digits? (cs : List Char) : Option (List Char × List Char) :=
  match cs.takeWhile isDigit with
  | [] => none
  | ds => some (ds, cs.dropWhile isDigit)

/-- Takes the integer part: no further digit follows a leading zero. -/
def integerPart? (cs : List Char) : Option (List Char × List Char) := do
  let (ds, rest) ← digits? cs
  if ds.length > 1 && ds.head? = some '0' then none else some (ds, rest)

/-- Takes a fraction if there is one. -/
def fractionPart? : List Char → Option (List Char × List Char)
  | '.' :: cs => (digits? cs).map fun (ds, rest) => ('.' :: ds, rest)
  | cs => some ([], cs)

/-- Takes an exponent if there is one. -/
def exponentPart? : List Char → Option (List Char × List Char)
  | 'e' :: cs => signed 'e' cs
  | 'E' :: cs => signed 'E' cs
  | cs => some ([], cs)
where
  signed (mark : Char) : List Char → Option (List Char × List Char)
    | '+' :: cs => (digits? cs).map fun (ds, rest) => (mark :: '+' :: ds, rest)
    | '-' :: cs => (digits? cs).map fun (ds, rest) => (mark :: '-' :: ds, rest)
    | cs => (digits? cs).map fun (ds, rest) => (mark :: ds, rest)

/-- Takes a number. -/
def number? (cs : List Char) : Option (Token × List Char) := do
  let (sign, cs) := match cs with
    | '-' :: rest => (['-'], rest)
    | _ => ([], cs)
  let (whole, cs) ← integerPart? cs
  let (fraction, cs) ← fractionPart? cs
  let (exponent, cs) ← exponentPart? cs
  if sign.isEmpty && fraction.isEmpty && exponent.isEmpty then
    some (.natural (Nat.ofDigitChars 10 whole 0), cs)
  else some (.number (String.ofList (sign ++ whole ++ fraction ++ exponent)), cs)

/-! ## Token sequences -/

/-- Takes one token from a text that does not start with a blank. -/
def token? : List Char → Option (Token × List Char)
  | '\x7b' :: rest => some (.leftBrace, rest)
  | '\x7d' :: rest => some (.rightBrace, rest)
  | '[' :: rest => some (.leftBracket, rest)
  | ']' :: rest => some (.rightBracket, rest)
  | ',' :: rest => some (.comma, rest)
  | ':' :: rest => some (.colon, rest)
  | 'n' :: 'u' :: 'l' :: 'l' :: rest => some (.null, rest)
  | 't' :: 'r' :: 'u' :: 'e' :: rest => some (.bool true, rest)
  | 'f' :: 'a' :: 'l' :: 's' :: 'e' :: rest => some (.bool false, rest)
  | '"' :: rest => do
    let (units, tail) ← stringUnits? rest
    return (.string ((unitsText? units).map String.ofList), tail)
  | cs => number? cs

/-- The tokens of a text. Every step takes at least one character, so as many steps as there are
characters, and one more for the end, suffice. -/
def tokensWithin? : Nat → List Char → Option (List Token)
  | 0, _ => none
  | steps + 1, cs =>
    match cs.dropWhile isSpace with
    | [] => some []
    | rest => do
      let (t, tail) ← token? rest
      return t :: (← tokensWithin? steps tail)

def tokens? (cs : List Char) : Option (List Token) := tokensWithin? (cs.length + 1) cs

end NodeGraph.Json
