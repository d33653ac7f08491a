import NodeGraph.Proofs.Bytecode.Machine
import NodeGraph.Proofs.Bytecode.Path

/-!
# Execution

A run is recorded by the addresses of the instructions it executes (`Host.Executes`). What single
instructions do is said here once, so that code can be executed address by address. Where control leaves
a range of addresses for one address only (`Bytecode.Closed`), it stays in the range until it comes to
that address (`Host.Executes.stays`).
-/
namespace NodeGraph

/-! ## Ranges of addresses -/

namespace Bytecode

variable {b : Bytecode} {lo middle hi exit : Nat}

/-- Control goes from the addresses between `lo` and `hi` to others of them, or to `exit`. -/
def Closed (b : Bytecode) (lo hi exit : Nat) : Prop :=
  ∀ ⦃i j⦄, lo ≤ i → i < hi → b.Flows i j → lo ≤ j ∧ j < hi ∨ j = exit

theorem closed_self (lo exit : Nat) : b.Closed lo lo exit := fun i j hlo hhi => by omega

/-- Two ranges in a row, of which the first leads to the second. -/
theorem Closed.append (h : b.Closed lo middle middle) (h' : b.Closed middle hi exit) (hlo : lo ≤ middle)
    (hhi : middle < hi ∨ middle = hi ∧ hi = exit) : b.Closed lo hi exit := by
  intro i j hi' hj hflow
  by_cases hmiddle : i < middle
  · have := h hi' hmiddle hflow
    omega
  · have := h' (by omega) hj hflow
    omega

theorem closed_singleton {x : Instruction} (hx : b.instructions[lo]? = some x)
    (h : ∀ j ∈ x.successors lo, j = exit) : b.Closed lo (lo + 1) exit := by
  intro i j hlo hhi hflow
  obtain ⟨y, hy, hj⟩ := hflow
  obtain rfl : i = lo := by omega
  obtain rfl : x = y := Option.some.inj (hx.symm.trans hy)
  exact .inr (h j hj)

end Bytecode

namespace Host

variable {catalog : Catalog} {V S : Type} {host : Host catalog V S} {p : Program} {m m' m'' : Machine V S}
  {as as' : List Nat} {lo middle hi exit : Nat} {o : Operand}

/-! ## Runs and their addresses -/

variable (host p) in
/-- A run from one machine to another executes the instructions at these addresses, one after the other. -/
inductive Executes : Machine V S → List Nat → Machine V S → Prop
  | refl (m : Machine V S) : Executes m [] m
  | step {m m' m'' : Machine V S} {as : List Nat} (hstep : host.step p m = some m') (h : Executes m' as m'') :
    Executes m (m.address :: as) m''

variable (host p) in
/-- A run from `lo` to `hi` that executes nothing outside. -/
def RunsThrough (lo hi : Nat) (m m' : Machine V S) : Prop :=
  m.address = lo ∧ m'.address = hi ∧ ∃ as, host.Executes p m as m' ∧ ∀ a ∈ as, lo ≤ a ∧ a < hi

theorem Executes.single (h : host.step p m = some m') : host.Executes p m [m.address] m' := .step h (.refl m')

theorem Executes.at {a : Nat} (hm : m.address = a) (h : host.step p m = some m') : host.Executes p m [a] m' :=
  hm ▸ .single h

theorem Executes.trans (h : host.Executes p m as m') (h' : host.Executes p m' as' m'') :
    host.Executes p m (as ++ as') m'' := by
  induction h with
  | refl m => exact h'
  | step hstep _ ih => exact .step hstep (ih h')

theorem Executes.runs (h : host.Executes p m as m') : host.Runs p m m' := by
  induction h with
  | refl m => exact .refl
  | step hstep _ ih => exact .head hstep ih

theorem flows_of_step (h : host.step p m = some m') : p.bytecode.Flows m.address m'.address := by
  unfold step at h
  obtain ⟨x, hx, h⟩ := Option.bind_eq_some_iff.1 h
  obtain ⟨next, hnext, rfl⟩ := Option.map_eq_some_iff.1 h
  refine ⟨x, hx, ?_⟩
  show next ∈ x.successors m.address
  cases x with
  | jumpBackward offset =>
    simp only [Instruction.next] at hnext
    split at hnext
    · next hle => simp_all [Instruction.successors]
    · cases hnext
  | jumpIf condition offset expected =>
    simp only [Instruction.next, Option.some.injEq] at hnext
    split at hnext <;> simp [Instruction.successors, ← hnext]
  | exit => cases hnext
  | _ => simp_all [Instruction.next, Instruction.successors]

/-- Control stays in a closed range until it comes to the address behind it. -/
theorem Executes.stays (hclosed : p.bytecode.Closed lo hi exit) (h : host.Executes p m as m')
    (hm : lo ≤ m.address ∧ m.address < hi ∨ m.address = exit) (hexit : exit ∉ as) :
    ∀ a ∈ as, lo ≤ a ∧ a < hi := by
  induction h with
  | refl m => simp
  | @step m m' _ as hstep _ ih =>
    rw [List.mem_cons, not_or] at hexit
    have hm := hm.resolve_right (Ne.symm hexit.1)
    have hnext := hclosed hm.1 hm.2 (flows_of_step hstep)
    intro a ha
    rcases List.mem_cons.1 ha with rfl | ha
    · exact hm
    · exact ih hnext hexit.2 a ha

/-! ## Single instructions -/

section Instructions

variable {source target lhs rhs condition count index : Operand} {offset : Nat} {expected : Bool}

theorem step_jumpForward (h : p.bytecode.instructions[m.address]? = some (.jumpForward offset)) :
    host.step p m = some { m with address := m.address + offset } := by
  rw [host.step_eq h]
  simp [Instruction.next, after, effectAt, effect, writes, storeAll]

theorem step_jumpBackward (h : p.bytecode.instructions[m.address]? = some (.jumpBackward offset))
    (hle : offset ≤ m.address) : host.step p m = some { m with address := m.address - offset } := by
  rw [host.step_eq h]
  simp [Instruction.next, after, effectAt, effect, writes, storeAll, hle]

theorem step_jumpIf (h : p.bytecode.instructions[m.address]? = some (.jumpIf condition offset expected)) :
    host.step p m = some { m with
      address := if host.truth (host.load m.memory (p.place condition)) = expected then m.address + offset
        else m.address + 1 } := by
  rw [host.step_eq h]
  simp [Instruction.next, after, effectAt, effect, reads, writes, storeAll]

theorem step_copy (h : p.bytecode.instructions[m.address]? = some (.copy source target)) :
    host.step p m = some { m with
      address := m.address + 1
      memory := host.store m.memory (p.place target) (host.load m.memory (p.place source)) } := by
  rw [host.step_eq h]
  simp [Instruction.next, after, effectAt, effect, reads, writes, storeAll]

theorem step_zero (h : p.bytecode.instructions[m.address]? = some (.zero o)) :
    host.step p m = some { m with
      address := m.address + 1
      memory := host.store m.memory (p.place o) host.zero } := by
  rw [host.step_eq h]
  simp [Instruction.next, after, effectAt, effect, writes, storeAll]

theorem step_increment (h : p.bytecode.instructions[m.address]? = some (.increment o)) :
    host.step p m = some { m with
      address := m.address + 1
      memory := host.store m.memory (p.place o) (host.increment (host.load m.memory (p.place o))) } := by
  rw [host.step_eq h]
  simp [Instruction.next, after, effectAt, effect, reads, writes, storeAll]

theorem step_equals (h : p.bytecode.instructions[m.address]? = some (.equals lhs rhs target)) :
    host.step p m = some { m with
      address := m.address + 1
      memory := host.store m.memory (p.place target)
        (host.equals (host.load m.memory (p.place lhs)) (host.load m.memory (p.place rhs))) } := by
  rw [host.step_eq h]
  simp [Instruction.next, after, effectAt, effect, reads, writes, storeAll]

theorem step_beginBlock (h : p.bytecode.instructions[m.address]? = some (.beginBlock count index)) :
    host.step p m = some { m with
      address := m.address + 1
      state := host.enterBlock m.state (host.load m.memory (p.place count))
        (host.load m.memory (p.place index)) } := by
  rw [host.step_eq h]
  simp [Instruction.next, after, effectAt, effect, reads, writes, storeAll]

theorem step_endBlock (h : p.bytecode.instructions[m.address]? = some .endBlock) :
    host.step p m = some { m with address := m.address + 1, state := host.leaveBlock m.state } := by
  rw [host.step_eq h]
  simp [Instruction.next, after, effectAt, effect, writes, storeAll]

end Instructions

/-! ## Memory -/

/-- Storing what is there changes nothing. -/
theorem store_load (memory : Cell → V) (w : Place) : host.store memory w (host.load memory w) = memory := by
  unfold store load
  cases w.member with
  | none => exact Function.update_eq_self _ _
  | some name =>
    dsimp only
    rw [host.setMember_member]
    exact Function.update_eq_self _ _

theorem load_whole (h : o.propertyPath = none) (memory : Cell → V) :
    host.load memory (p.place o) = memory o.cell := by
  rw [Program.place_of_whole h]
  rfl

theorem load_store_whole (h : o.propertyPath = none) (memory : Cell → V) (v : V) :
    host.load (host.store memory (p.place o) v) (p.place o) = v := by
  rw [Program.place_of_whole h]
  exact Function.update_self _ _ _

theorem store_of_ne {c : Cell} (hne : c ≠ o.cell) (memory : Cell → V) (v : V) :
    host.store memory (p.place o) v c = memory c :=
  Function.update_of_ne hne _ _

theorem load_store_of_ne {o' : Operand} (hne : o'.cell ≠ o.cell) (memory : Cell → V) (v : V) :
    host.load (host.store memory (p.place o) v) (p.place o') = host.load memory (p.place o') := by
  unfold store load
  rw [Function.update_of_ne (show (p.place o').cell ≠ (p.place o).cell from hne)]

end Host
end NodeGraph
