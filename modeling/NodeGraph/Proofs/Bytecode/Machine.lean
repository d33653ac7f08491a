import Mathlib.Logic.Function.Basic
import Mathlib.Logic.Relation
import NodeGraph.Catalog
import NodeGraph.Program.Basic

/-!
# Running a program

A program runs on a host, which knows what values are and what the functions of the catalog do. The
machine keeps one value per register. An instruction reads some of its operands and writes others; what
it does to the values read is the host's affair (`Host.effect`). What can be seen from outside are the
calls, with the values they look at.
-/
namespace NodeGraph

/-! ## Places -/

/-- A register of a memory space, or an external variable. -/
structure Cell where
  memory : MemorySpace
  index : Nat
deriving DecidableEq, Repr

def Operand.cell (o : Operand) : Cell := ⟨o.memory, o.index⟩

/-- A register, or the member of it that a property path leads to. -/
structure Place where
  cell : Cell
  member : Option String
deriving DecidableEq, Repr

namespace Program

/-- What an operand of a program refers to. -/
def place (p : Program) (o : Operand) : Place where
  cell := o.cell
  member := do
    let table ← p.memory? o.memory
    let path ← table.propertyPaths[← o.propertyPath]?
    return path.segments

/-- Without a property path, it is a whole register. -/
theorem place_of_whole {p : Program} {o : Operand} (h : o.propertyPath = none) : p.place o = ⟨o.cell, none⟩ := by
  unfold place
  rw [h]
  cases p.memory? o.memory <;> rfl

/-- Where a cell has its first value from: the number of an external variable, or a register whose name
does not matter. -/
def origin (p : Program) (c : Cell) : Option (Nat ⊕ Register) :=
  match p.memory? c.memory with
  | none => some (.inl c.index)
  | some table => table.registers[c.index]?.map fun r => .inr { r with name := "" }

end Program

/-- The directions of the parameters of a function. -/
def Catalog.directions (catalog : Catalog) (function : Nat) : List ParameterDirection :=
  ((catalog.get? function).map fun f => f.parameters.map (·.direction)).getD []

/-! ## Hosts -/

/-- What programs over a catalog run on, with values `V` and a state `S` of its own. -/
structure Host (catalog : Catalog) (V S : Type) where
  /-- The first value of an external variable or a register. -/
  initial : Nat ⊕ Register → V
  /-- The first index of a loop. -/
  zero : V
  increment : V → V
  equals : V → V → V
  truth : V → Bool
  member : V → String → V
  setMember : V → String → V → V
  /-- A member set to what it is changes nothing. -/
  setMember_member : ∀ v name, setMember v name (member v name) = v
  /-- Whether calls look at the operands of parameters of that direction. -/
  observes : ParameterDirection → Bool
  /-- A call gets the operands it looks at, and gives new values to those that are not inputs. -/
  call : S → Nat → List V → S × List V
  arrayReads : ArrayOp → List Bool
  arrayWrites : ArrayOp → List Bool
  /-- An array operation gets the operands it reads, and gives new values to those it writes. -/
  array : ArrayOp → List V → List V
  enterBlock : S → V → V → S
  leaveBlock : S → S

/-- The elements whose flag is set. -/
def chosen {α : Type} (flags : List Bool) (l : List α) : List α := ((l.zip flags).filter (·.2)).map (·.1)

/-- What an instruction does with the values it read. -/
structure Effect (V S : Type) where
  state : S
  /-- The values for the operands that are written. -/
  written : List V := []
  call : Option (Nat × List V) := none
  /-- Whether a conditional jump is taken. -/
  taken : Bool := false

/-- Where control goes on after an instruction at `address`. -/
def Instruction.next (address : Nat) (taken : Bool) : Instruction → Option Nat
  | jumpForward offset => some (address + offset)
  | jumpBackward offset => if offset ≤ address then some (address - offset) else none
  | jumpIf _ offset _ => some (if taken then address + offset else address + 1)
  | exit => none
  | _ => some (address + 1)

/-- A running program. -/
structure Machine (V S : Type) where
  address : Nat
  memory : Cell → V
  state : S
  /-- The calls made so far, with the values they looked at. -/
  calls : List (Nat × List V)

namespace Host

variable {catalog : Catalog} {V S : Type} (host : Host catalog V S)

/-- The operands an instruction reads. -/
def reads : Instruction → List Operand
  | .execute function operands => chosen ((catalog.directions function).map host.observes) operands
  | .copy source _ => [source]
  | .increment operand => [operand]
  | .equals lhs rhs _ => [lhs, rhs]
  | .jumpIf condition .. => [condition]
  | .beginBlock count index => [count, index]
  | .array op operands => chosen (host.arrayReads op) operands
  | _ => []

/-- The operands an instruction writes. -/
def writes : Instruction → List Operand
  | .execute function operands => chosen ((catalog.directions function).map (· ≠ .input)) operands
  | .copy _ target => [target]
  | .zero operand | .increment operand => [operand]
  | .equals _ _ result => [result]
  | .array op operands => chosen (host.arrayWrites op) operands
  | _ => []

/-- What an instruction does with the values of the operands it reads. -/
def effect (i : Instruction) (state : S) (read : List V) : Effect V S :=
  match i with
  | .execute function _ =>
    let (state, written) := host.call state function read
    { state, written, call := some (function, read) }
  | .copy .. => { state, written := read }
  | .zero _ => { state, written := [host.zero] }
  | .increment _ => { state, written := read.map host.increment }
  | .equals .. =>
    match read with
    | [v, w] => { state, written := [host.equals v w] }
    | _ => { state }
  | .jumpIf _ _ expected => { state, taken := read.any (host.truth · = expected) }
  | .beginBlock .. =>
    match read with
    | [count, index] => { state := host.enterBlock state count index }
    | _ => { state }
  | .endBlock => { state := host.leaveBlock state }
  | .array op _ => { state, written := host.array op read }
  | _ => { state }

/-! ## Memory -/

def load (memory : Cell → V) (p : Place) : V :=
  match p.member with
  | none => memory p.cell
  | some name => host.member (memory p.cell) name

def store (memory : Cell → V) (p : Place) (v : V) : Cell → V :=
  Function.update memory p.cell <|
    match p.member with
    | none => v
    | some name => host.setMember (memory p.cell) name v

/-- Stores one value after the other, and zero where there is none. -/
def storeAll (memory : Cell → V) : List Place → List V → Cell → V
  | [], _ => memory
  | p :: ps, vs => storeAll (host.store memory p (vs.headD host.zero)) ps vs.tail

/-! ## Runs -/

/-- The machine at the first instruction of an entry. -/
def start (p : Program) (state : S) (address : Nat) : Machine V S where
  address
  memory c := (p.origin c).elim host.zero host.initial
  state
  calls := []

/-- What an instruction does with what the machine holds. -/
def effectAt (p : Program) (m : Machine V S) (i : Instruction) : Effect V S :=
  host.effect i m.state ((host.reads i).map fun o => host.load m.memory (p.place o))

/-- The machine after an instruction, with control at an address. -/
def after (p : Program) (m : Machine V S) (i : Instruction) (address : Nat) : Machine V S where
  address
  memory := host.storeAll m.memory ((host.writes i).map p.place) (host.effectAt p m i).written
  state := (host.effectAt p m i).state
  calls := m.calls ++ (host.effectAt p m i).call.toList

/-- One instruction; `none` when the run has ended. -/
def step (p : Program) (m : Machine V S) : Option (Machine V S) := do
  let i ← p.bytecode.instructions[m.address]?
  (i.next m.address (host.effectAt p m i).taken).map (host.after p m i)

theorem step_eq {p : Program} {m : Machine V S} {i : Instruction}
    (h : p.bytecode.instructions[m.address]? = some i) :
    host.step p m = (i.next m.address (host.effectAt p m i).taken).map (host.after p m i) := by
  unfold step
  rw [h]
  rfl

/-- Some run of the program leads from one machine to the other. -/
def Runs (p : Program) : Machine V S → Machine V S → Prop :=
  Relation.ReflTransGen fun m m' => host.step p m = some m'

/-- At some time an entry has made exactly these calls. -/
def Performs (p : Program) (state : S) (entry : String) (calls : List (Nat × List V)) : Prop :=
  ∃ a m, (entry, a) ∈ p.bytecode.entries.toList ∧ host.Runs p (host.start p state a) m ∧ m.calls = calls

end Host
end NodeGraph
