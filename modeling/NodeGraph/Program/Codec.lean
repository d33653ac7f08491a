import NodeGraph.SortedMap

/-!
# Byte codecs

A codec writes values as bytes and reads them back from the front of a byte sequence, returning what
follows. Numbers are written in groups of seven bits, least significant first, with the high bit set on
all groups but the last; the number of groups is limited, and so is the value of the last one. Lists,
texts and maps start with their length.
-/
namespace NodeGraph

inductive DecodeError where
  | unexpectedEnd
  | badBool
  | badOption
  | badText
  | badNumber
  | unknownVariant
deriving DecidableEq, Repr

def DecodeError.message : DecodeError → String
  | unexpectedEnd => "Hit the end of buffer, expected more data"
  | badBool => "Found a bool that wasn't 0 or 1"
  | badOption => "Found an Option discriminant that wasn't 0 or 1"
  | badText => "Tried to parse invalid utf-8"
  | badNumber => "Found a varint that didn't terminate. Is the usize too big for this platform?"
  | unknownVariant => "Serde Deserialization Error"

/-- Reads a value from the front of a byte sequence. -/
abbrev ByteReader (α : Type) := StateT (List UInt8) (Except DecodeError) α

structure Codec (α : Type) where
  encode : α → List UInt8
  decode : ByteReader α

namespace Codec

variable {α β : Type}

/-- Takes one byte. -/
def takeByte : ByteReader UInt8
  | [] => .error .unexpectedEnd
  | b :: rest => .ok (b, rest)

/-! ## Numbers -/

/-- A number in at most `groups` groups. -/
def encodeGroups : Nat → Nat → List UInt8
  | 0, _ => []
  | groups + 1, n =>
    if n < 128 then [UInt8.ofNat n]
    else UInt8.ofNat (n % 128 + 128) :: encodeGroups groups (n / 128)

/-- Reads a number in at most `groups` groups; the last of them may not exceed `lastMax`. -/
def decodeGroups (lastMax : Nat) : Nat → ByteReader Nat
  | 0 => throw .badNumber
  | groups + 1 => do
    let b := (← takeByte).toNat
    if b < 128 then
      if groups = 0 && lastMax < b then throw .badNumber else return b
    else return (b - 128) + 128 * (← decodeGroups lastMax groups)

/-- Numbers below `2 ^ 32`. -/
def word : Codec Nat := ⟨encodeGroups 5, decodeGroups 15 5⟩

/-- Lengths, below `2 ^ 64`. -/
def length : Codec Nat := ⟨encodeGroups 10, decodeGroups 1 10⟩

/-! ## Scalars -/

def bool : Codec Bool where
  encode b := [if b then 1 else 0]
  decode := do
    match (← takeByte).toNat with
    | 0 => return false
    | 1 => return true
    | _ => throw .badBool

/-- Takes a number of bytes. -/
def takeBytes (n : Nat) : ByteReader (List UInt8) := fun bytes =>
  if n ≤ bytes.length then .ok (bytes.take n, bytes.drop n) else .error .unexpectedEnd

def text : Codec String where
  encode s := length.encode s.utf8ByteSize ++ s.toUTF8.data.toList
  decode := do
    let bytes ← takeBytes (← length.decode)
    match String.fromUTF8? ⟨bytes.toArray⟩ with
    | some s => return s
    | none => throw .badText

/-! ## Combinations -/

def pair (a : Codec α) (b : Codec β) : Codec (α × β) where
  encode p := a.encode p.1 ++ b.encode p.2
  decode := return (← a.decode, ← b.decode)

/-- The codec of a type that is another type's in disguise. -/
def imap (toBase : β → α) (ofBase : α → β) (c : Codec α) : Codec β where
  encode b := c.encode (toBase b)
  decode := ofBase <$> c.decode

def option (c : Codec α) : Codec (Option α) where
  encode
    | none => [0]
    | some a => 1 :: c.encode a
  decode := do
    match (← takeByte).toNat with
    | 0 => return none
    | 1 => return some (← c.decode)
    | _ => throw .badOption

/-- Reads a number of values. -/
def decodeMany (read : ByteReader α) : Nat → ByteReader (List α)
  | 0 => return []
  | n + 1 => return (← read) :: (← decodeMany read n)

def list (c : Codec α) : Codec (List α) where
  encode as := length.encode as.length ++ as.flatMap c.encode
  decode := do decodeMany c.decode (← length.decode)

/-- Maps, as lists of entries in key order; on reading, the last entry of a key counts. -/
def sortedMap [Ord α] [Std.TransOrd α] [Std.LawfulEqOrd α] (key : Codec α) (value : Codec β) :
    Codec (SortedMap α β) :=
  imap SortedMap.toList SortedMap.ofList (list (pair key value))

/-- Members of a fixed list, by position. -/
def choice [DecidableEq α] (all : List α) : Codec α where
  encode a := word.encode (all.idxOf a)
  decode := do
    match all[← word.decode]? with
    | some a => return a
    | none => throw .unknownVariant

/-- Reads the value at the front of a byte sequence; what follows is ignored. -/
def decodeAll (c : Codec α) (bytes : List UInt8) : Except DecodeError α :=
  (c.decode bytes).map (·.1)

end Codec
end NodeGraph
