/-!
# Faults

A fault is a step outside the contract of the data: an id that names nothing, a chain of references
without an end, a size that outgrows its width, or an instruction written where none may be.
Operations that can meet one return a `Checked` value, so the absence of faults is a statement about
results and not about how the code was run.
-/
namespace NodeGraph

abbrev NodeId := Nat
abbrev PinId := Nat
abbrev ExprId := Nat

inductive Fault where
  | missingNode (id : NodeId)
  | missingPin (id : PinId)
  | missingExpression (id : ExprId)
  /-- The parents of a pin never reach a root pin. -/
  | endlessParents (pin : PinId)
  /-- A walk over expressions went deeper than there are expressions. -/
  | endlessNesting (id : ExprId)
  /-- A type contains itself. -/
  | endlessType (name : String)
  /-- A sum or product left the range of its machine word. -/
  | overflow
  | emittedDuringSetup
  | unmatchedEndBlock
  | openBlocks (count : Nat)
  /-- The instruction at this address has no offset to set. -/
  | notAJump (address : Nat)
deriving DecidableEq, Repr

abbrev Checked := Except Fault

/-- The entry of an arena, or the fault for its absence. -/
def Checked.get {α : Type} (missing : Nat → Fault) (arena : List α) (id : Nat) : Checked α :=
  match arena[id]? with
  | some a => .ok a
  | none => .error (missing id)

/-- Exclusive upper bound of the numbers a document or a program may hold: they have 32 bits. -/
def wordLimit : Nat := 0x100000000

/-- Exclusive upper bound of addresses and of byte counts: they have 64 bits. -/
def addressLimit : Nat := 0x10000000000000000

/-- The number `n`, unless it does not fit below `limit`. -/
def Checked.fit (limit n : Nat) : Checked Nat :=
  if n < limit then .ok n else .error .overflow

end NodeGraph
