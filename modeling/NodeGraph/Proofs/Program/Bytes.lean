import NodeGraph.Program.Bytes
import NodeGraph.Proofs.Program.Codec

/-!
# Programs survive as bytes

A program is read back from its bytes, whatever stands behind them, and if any of them are missing, the reader
says so (`Program.ofBytes_toBytes`). This asks only that numbers have 32 bits and lengths have 64.
-/
namespace NodeGraph

open Codec

/-! ## What can be written -/

/-- The numbers of an operand have 32 bits. -/
def Operand.Writable (o : Operand) : Prop := o.index < wordLimit ∧ ∀ path ∈ o.propertyPath, path < wordLimit

instance : DecidablePred Operand.Writable := fun _ => inferInstanceAs (Decidable (_ ∧ _))

/-- The numbers of an instruction have 32 bits, and there are not too many operands to count. -/
def Instruction.Writable : Instruction → Prop
  | execute function operands => function < wordLimit ∧ WritableList Operand.Writable operands
  | copy first second | beginBlock first second => first.Writable ∧ second.Writable
  | zero operand | increment operand => operand.Writable
  | equals lhs rhs result => lhs.Writable ∧ rhs.Writable ∧ result.Writable
  | jumpForward offset | jumpBackward offset => offset < wordLimit
  | jumpIf condition offset _ => condition.Writable ∧ offset < wordLimit
  | array _ operands => WritableList Operand.Writable operands
  | endBlock | exit => True

instance : DecidablePred Instruction.Writable
  | .execute .. | .copy .. | .beginBlock .. | .jumpIf .. | .equals .. => inferInstanceAs (Decidable (_ ∧ _))
  | .zero o | .increment o => inferInstanceAs (Decidable o.Writable)
  | .jumpForward _ | .jumpBackward _ => inferInstanceAs (Decidable (_ < _))
  | .array _ operands => inferInstanceAs (Decidable (WritableList _ operands))
  | .endBlock | .exit => .isTrue trivial

def Bytecode.Writable (b : Bytecode) : Prop :=
  WritableList Instruction.Writable b.instructions ∧
    WritableList (fun e => WritableText e.1 ∧ e.2 < wordLimit) b.entries.toList ∧
    WritableList (WritableList (· < wordLimit)) b.callStacks

instance : DecidablePred Bytecode.Writable := fun _ => inferInstanceAs (Decidable (_ ∧ _))

def Register.Writable (r : Register) : Prop :=
  WritableText r.name ∧ WritableText r.typeName ∧ r.elementCount < wordLimit ∧
    WritableList WritableText r.defaultValues ∧ r.size < wordLimit ∧ r.alignment < wordLimit

instance : DecidablePred Register.Writable := fun _ => inferInstanceAs (Decidable (_ ∧ _))

def MemoryTable.Writable (t : MemoryTable) : Prop :=
  WritableList Register.Writable t.registers ∧
    WritableList (fun path => path.register < wordLimit ∧ WritableText path.segments) t.propertyPaths

instance : DecidablePred MemoryTable.Writable := fun _ => inferInstanceAs (Decidable (_ ∧ _))

/-- All numbers in a program have 32 bits, and all lengths have 64. -/
structure Program.Writable (p : Program) : Prop where
  bytecode : p.bytecode.Writable
  literals : p.literals.Writable
  work : p.work.Writable
  debug : p.debug.Writable
  externals : WritableList (fun e => WritableText e.name ∧ WritableText e.typeName) p.externals
  debugMirrors : WritableList (fun e => e.1.Writable ∧ WritableList Operand.Writable e.2) p.debugMirrors.toList
  pinPaths : WritableList (fun e => WritableText e.1 ∧ e.2.Writable) p.pinPaths.toList

/-! ## Codecs of the parts -/

namespace Codec

variable {α : Type} {P Q : α → Prop} {c : Codec α}

theorem ReadsBack.mono (h : c.ReadsBack Q) (hpq : ∀ a, P a → Q a) : c.ReadsBack P := fun a ha => h a (hpq a ha)

theorem readsBack_memorySpace : (choice MemorySpace.all).ReadsBack fun _ => True :=
  (readsBack_choice (by decide)).mono fun space _ => by cases space <;> decide

theorem readsBack_arrayOp : arrayOp.ReadsBack fun _ => True :=
  (readsBack_choice (by decide)).mono fun op _ => by cases op <;> decide

theorem readsBack_operand : operand.ReadsBack Operand.Writable :=
  ((readsBack_memorySpace.pair (readsBack_word.pair readsBack_word.option)).imap fun _ => rfl).mono
    fun _ h => ⟨trivial, h⟩

theorem readsBack_operands : operands.ReadsBack (WritableList Operand.Writable) := readsBack_operand.list

/-- An instruction is read by its position first and then field by field. -/
theorem readsBack_instruction : instruction.ReadsBack Instruction.Writable := by
  intro i h
  have htag (n : Nat) (hn : n < 12) : Reads word.decode (word.encode n) n :=
    readsBack_word n (Nat.lt_trans hn (by decide))
  cases i with
  | execute function args =>
    obtain ⟨hfunction, hargs⟩ := h
    show Reads decodeInstruction (word.encode 0 ++ word.encode function ++ operands.encode args) _
    rw [List.append_assoc]
    exact (htag 0 (by decide)).bind ((readsBack_word _ hfunction).bind ((readsBack_operands _ hargs).then_pure rfl))
  | copy source target =>
    show Reads decodeInstruction (word.encode 1 ++ operand.encode source ++ operand.encode target) _
    rw [List.append_assoc]
    exact (htag 1 (by decide)).bind
      ((readsBack_operand _ h.1).bind ((readsBack_operand _ h.2).then_pure rfl))
  | zero o => exact (htag 2 (by decide)).bind ((readsBack_operand o h).then_pure rfl)
  | increment o => exact (htag 3 (by decide)).bind ((readsBack_operand o h).then_pure rfl)
  | equals lhs rhs result =>
    obtain ⟨hlhs, hrhs, hresult⟩ := h
    show Reads decodeInstruction
      (word.encode 4 ++ operand.encode lhs ++ operand.encode rhs ++ operand.encode result) _
    rw [List.append_assoc, List.append_assoc]
    exact (htag 4 (by decide)).bind ((readsBack_operand _ hlhs).bind
      ((readsBack_operand _ hrhs).bind ((readsBack_operand _ hresult).then_pure rfl)))
  | jumpForward offset => exact (htag 5 (by decide)).bind ((readsBack_word offset h).then_pure rfl)
  | jumpBackward offset => exact (htag 6 (by decide)).bind ((readsBack_word offset h).then_pure rfl)
  | jumpIf condition offset expected =>
    show Reads decodeInstruction
      (word.encode 7 ++ operand.encode condition ++ word.encode offset ++ bool.encode expected) _
    rw [List.append_assoc, List.append_assoc]
    exact (htag 7 (by decide)).bind ((readsBack_operand _ h.1).bind
      ((readsBack_word _ h.2).bind ((readsBack_bool expected trivial).then_pure rfl)))
  | beginBlock count index =>
    show Reads decodeInstruction (word.encode 8 ++ operand.encode count ++ operand.encode index) _
    rw [List.append_assoc]
    exact (htag 8 (by decide)).bind
      ((readsBack_operand _ h.1).bind ((readsBack_operand _ h.2).then_pure rfl))
  | endBlock => exact (htag 9 (by decide)).then_pure rfl
  | array op args =>
    show Reads decodeInstruction (word.encode 10 ++ arrayOp.encode op ++ operands.encode args) _
    rw [List.append_assoc]
    exact (htag 10 (by decide)).bind
      ((readsBack_arrayOp op trivial).bind ((readsBack_operands _ h).then_pure rfl))
  | exit => exact (htag 11 (by decide)).then_pure rfl

theorem readsBack_bytecode : bytecode.ReadsBack Bytecode.Writable :=
  ((readsBack_instruction.list.pair
    ((readsBack_text.sortedMap readsBack_word).pair readsBack_word.list.list)).imap fun _ => rfl).mono fun _ h => h

theorem readsBack_register : register.ReadsBack Register.Writable := by
  refine ((readsBack_text.pair (readsBack_text.pair (readsBack_word.pair (readsBack_bool.pair
    (readsBack_bool.pair (readsBack_text.list.pair (readsBack_word.pair readsBack_word))))))).imap
      fun _ => rfl).mono ?_
  rintro r ⟨hname, htype, hcount, hrest⟩
  exact ⟨hname, htype, hcount, trivial, trivial, hrest⟩

theorem readsBack_memoryTable : memoryTable.ReadsBack MemoryTable.Writable := by
  have hpath : propertyPath.ReadsBack fun path => path.register < wordLimit ∧ WritableText path.segments :=
    ((readsBack_word.pair readsBack_text).imap fun _ => rfl).mono fun _ h => h
  refine ((readsBack_memorySpace.pair (readsBack_register.list.pair hpath.list)).imap fun _ => rfl).mono ?_
  exact fun _ h => ⟨trivial, h⟩

theorem readsBack_externalVariable :
    externalVariable.ReadsBack fun e => WritableText e.name ∧ WritableText e.typeName :=
  ((readsBack_text.pair (readsBack_text.pair readsBack_bool)).imap fun _ => rfl).mono
    fun _ h => ⟨h.1, h.2, trivial⟩

theorem readsBack_program : program.ReadsBack Program.Writable := by
  refine ((readsBack_bytecode.pair (readsBack_memoryTable.pair (readsBack_memoryTable.pair
    (readsBack_memoryTable.pair (readsBack_externalVariable.list.pair
      ((readsBack_operand.sortedMap readsBack_operands).pair
        (readsBack_text.sortedMap readsBack_operand))))))).imap fun _ => rfl).mono ?_
  exact fun _ h => ⟨h.bytecode, h.literals, h.work, h.debug, h.externals, h.debugMirrors, h.pinPaths⟩

end Codec

/-! ## Programs -/

/-- A program is read back from its bytes and from any bytes that start with them. If bytes at the end are
missing, the reader hits the end. -/
theorem Program.ofBytes_toBytes (p : Program) (h : p.Writable) :
    ofBytes p.toBytes = .ok p ∧
      (∀ rest, ofBytes (p.toBytes ++ rest) = .ok p) ∧
      ∀ front, front <+: p.toBytes → front ≠ p.toBytes →
        ∃ error, ofBytes front = .error error ∧ error.message = "Hit the end of buffer, expected more data" := by
  have hreads : Reads program.decode p.toBytes p := readsBack_program p h
  have hwhole (rest : List UInt8) : ofBytes (p.toBytes ++ rest) = .ok p := by
    rw [ofBytes, decodeAll, hreads.whole]
    rfl
  refine ⟨?_, hwhole, fun front hfront hne => ⟨.unexpectedEnd, ?_, rfl⟩⟩
  · simpa using hwhole []
  · rw [ofBytes, decodeAll, hreads.cut hfront hne]
    rfl

/-- A program with a watched member of a register and with names outside ASCII. -/
def mirroredProgram : Program where
  bytecode := {
    instructions := [
      .jumpIf ⟨.external, 0, none⟩ 300 false, .copy ⟨.work, 0, some 0⟩ ⟨.work, 0, none⟩,
      .array .reset [⟨.work, 0, none⟩], .exit]
    entries := .ofList [("Größe", 0), ("Go", 3)]
    callStacks := [[], [4294967295, 2], [], []] }
  work := {
    space := .work
    registers := [⟨"Make.名", "Pair", 2, true, true, ["(1,2)", "\"x\""], 8, 4⟩]
    propertyPaths := [⟨0, "[1].Left"⟩] }
  debug := { space := .debug, registers := [⟨"Make.名::Debug", "int32", 1, true, true, ["0"], 4, 4⟩] }
  externals := [⟨"Speed", "bool", false⟩]
  debugMirrors := .ofList [(⟨.work, 0, some 0⟩, [⟨.debug, 0, none⟩])]
  pinPaths := .ofList [("Make.名", ⟨.work, 0, none⟩), ("Make.名.1.Left", ⟨.work, 0, some 0⟩)]

theorem Program.ofBytes_toBytes_mirroredProgram :
    mirroredProgram.Writable ∧ mirroredProgram.toBytes.length = 182 ∧
      ofBytes mirroredProgram.toBytes = .ok mirroredProgram ∧
      ofBytes (mirroredProgram.toBytes ++ [255, 0]) = .ok mirroredProgram ∧
      ∃ error, ofBytes (mirroredProgram.toBytes.take 77) = .error error ∧
        error.message = "Hit the end of buffer, expected more data" := by
  have hwritable : mirroredProgram.Writable := by constructor <;> decide +kernel
  have hlength : mirroredProgram.toBytes.length = 182 := by decide +kernel
  obtain ⟨hread, htrailing, hcut⟩ := Program.ofBytes_toBytes mirroredProgram hwritable
  refine ⟨hwritable, hlength, hread, htrailing _, hcut _ (List.take_prefix _ _) fun heq => ?_⟩
  have hshort : (mirroredProgram.toBytes.take 77).length = 77 := by simp [hlength]
  rw [heq, hlength] at hshort
  exact absurd hshort (by decide)

end NodeGraph
