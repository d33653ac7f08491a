import NodeGraph.Program.Basic
import NodeGraph.Program.Codec

/-!
# Programs as bytes

Records are written field by field in order of declaration, variants as their position followed by
their fields.
-/
namespace NodeGraph.Codec

def operand : Codec Operand :=
  imap (fun o => (o.memory, o.index, o.propertyPath)) (fun (m, i, p) => ⟨m, i, p⟩)
    (pair (choice MemorySpace.all) (pair word (option word)))

def operands : Codec (List Operand) := list operand

def arrayOp : Codec ArrayOp := choice ArrayOp.all

/-- The position of an instruction among its kinds, and its fields. -/
def encodeInstruction : Instruction → List UInt8
  | .execute function args => word.encode 0 ++ word.encode function ++ operands.encode args
  | .copy source target => word.encode 1 ++ operand.encode source ++ operand.encode target
  | .zero o => word.encode 2 ++ operand.encode o
  | .increment o => word.encode 3 ++ operand.encode o
  | .equals lhs rhs result =>
    word.encode 4 ++ operand.encode lhs ++ operand.encode rhs ++ operand.encode result
  | .jumpForward offset => word.encode 5 ++ word.encode offset
  | .jumpBackward offset => word.encode 6 ++ word.encode offset
  | .jumpIf condition offset expected =>
    word.encode 7 ++ operand.encode condition ++ word.encode offset ++ bool.encode expected
  | .beginBlock count index => word.encode 8 ++ operand.encode count ++ operand.encode index
  | .endBlock => word.encode 9
  | .array op args => word.encode 10 ++ arrayOp.encode op ++ operands.encode args
  | .exit => word.encode 11

def decodeInstruction : ByteReader Instruction := do
  match ← word.decode with
  | 0 => return .execute (← word.decode) (← operands.decode)
  | 1 => return .copy (← operand.decode) (← operand.decode)
  | 2 => return .zero (← operand.decode)
  | 3 => return .increment (← operand.decode)
  | 4 => return .equals (← operand.decode) (← operand.decode) (← operand.decode)
  | 5 => return .jumpForward (← word.decode)
  | 6 => return .jumpBackward (← word.decode)
  | 7 => return .jumpIf (← operand.decode) (← word.decode) (← bool.decode)
  | 8 => return .beginBlock (← operand.decode) (← operand.decode)
  | 9 => return .endBlock
  | 10 => return .array (← arrayOp.decode) (← operands.decode)
  | 11 => return .exit
  | _ => throw .unknownVariant

def instruction : Codec Instruction := ⟨encodeInstruction, decodeInstruction⟩

def bytecode : Codec Bytecode :=
  imap (fun b => (b.instructions, b.entries, b.callStacks)) (fun (i, e, s) => ⟨i, e, s⟩)
    (pair (list instruction) (pair (sortedMap text word) (list (list word))))

def register : Codec Register :=
  imap
    (fun r => (r.name, r.typeName, r.elementCount, r.isArray, r.isDynamic, r.defaultValues, r.size,
      r.alignment))
    (fun (name, typeName, elementCount, isArray, isDynamic, defaultValues, size, alignment) =>
      { name, typeName, elementCount, isArray, isDynamic, defaultValues, size, alignment })
    (pair text (pair text (pair word (pair bool (pair bool (pair (list text) (pair word word)))))))

def propertyPath : Codec PropertyPath :=
  imap (fun p => (p.register, p.segments)) (fun (r, s) => ⟨r, s⟩) (pair word text)

def memoryTable : Codec MemoryTable :=
  imap (fun t => (t.space, t.registers, t.propertyPaths)) (fun (s, r, p) => ⟨s, r, p⟩)
    (pair (choice MemorySpace.all) (pair (list register) (list propertyPath)))

def externalVariable : Codec ExternalVariable :=
  imap (fun e => (e.name, e.typeName, e.isArray)) (fun (n, t, a) => ⟨n, t, a⟩)
    (pair text (pair text bool))

def program : Codec Program :=
  imap
    (fun p => (p.bytecode, p.literals, p.work, p.debug, p.externals, p.debugMirrors, p.pinPaths))
    (fun (bytecode, literals, work, debug, externals, debugMirrors, pinPaths) =>
      { bytecode, literals, work, debug, externals, debugMirrors, pinPaths })
    (pair bytecode (pair memoryTable (pair memoryTable (pair memoryTable
      (pair (list externalVariable) (pair (sortedMap operand operands) (sortedMap text operand)))))))

end NodeGraph.Codec

namespace NodeGraph.Program

def toBytes (p : Program) : List UInt8 := Codec.program.encode p

/-- The program at the front of a byte sequence. -/
def ofBytes (bytes : List UInt8) : Except DecodeError Program := Codec.program.decodeAll bytes

end NodeGraph.Program
