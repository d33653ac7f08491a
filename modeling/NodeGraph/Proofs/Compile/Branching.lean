import Mathlib
import NodeGraph.Proofs.Bytecode.Execution
import NodeGraph.Proofs.Compile.Sound

/-!
# Branches and conditional values

The code of an arm is left at its end only, whatever it contains. So control that enters an arm has
executed nothing else until it comes to where the arms join (`Host.RunsArm`), and a condition decides which
of two arms that is (`Tree.fork_runs`).
-/
namespace NodeGraph

open Lowering

/-! ## The code of an expression is closed -/

theorem Layout.closed_span {own : Nat → ExprId → List Instruction → List Span → Prop} {b : Bytecode}
    {spans : List Span} {ms : List Nat} (h : Layout own 0 b.instructions spans ms) {sp : Span}
    (hsp : sp ∈ spans) : b.Closed sp.start sp.stop sp.stop := by
  intro i j hstart hstop hflow
  obtain ⟨x, hx, hj⟩ := hflow
  rcases Instruction.eq_succ_or_jumpTarget? hj with rfl | htarget
  · omega
  · have := h.lands_span hsp hstart hstop (at_zero.2 hx) htarget
    omega

namespace Lowering

variable {cx : Context} {s : State} {z : Option ExprId} {lo hi : Nat}

theorem Context.Lowered.closed_part (h : cx.Lowered s) (hpart : s.Part z lo hi) :
    lo ≤ hi ∧ s.code.Closed lo hi hi := by
  obtain ⟨ms, hlayout⟩ := h.layout
  cases z with
  | none =>
    obtain rfl : lo = hi := hpart
    exact ⟨Nat.le_refl _, Bytecode.closed_self _ _⟩
  | some e =>
    rcases hpart with hsp | ⟨rfl, -⟩
    · exact ⟨(hlayout.span_bounds hsp).2.1, hlayout.closed_span hsp⟩
    · exact ⟨Nat.le_refl _, Bytecode.closed_self _ _⟩

end Lowering

/-! ## Arms -/

namespace Host

variable {catalog : Catalog} {V S : Type} {host : Host catalog V S} {p : Program} {m : Machine V S}
  {cx : Context}

variable (host p) in
/-- The memory after a copy. -/
def copied (source target : Operand) (memory : Cell → V) : Cell → V :=
  host.store memory (p.place target) (host.load memory (p.place source))

variable (host p) in
/-- Control is at the first address of an arm whose code reaches to `stop` and is followed by `ending`. It
stays in the arm until it comes to `join`. When the code of the arm has been run to its end, each
instruction of `ending` is executed once, and with the memory changed by `write` control is at `join`. -/
structure RunsArm (m : Machine V S) (stop join : Nat) (ending : List Instruction)
    (write : (Cell → V) → Cell → V) : Prop where
  code : ∀ {n x}, ending[n]? = some x → p.bytecode.instructions[stop + n]? = some x
  stays : ∀ {as m'}, host.Executes p m as m' → join ∉ as →
    ∀ a ∈ as, m.address ≤ a ∧ a < stop + ending.length
  ends : ∀ {m'}, host.RunsThrough p m.address stop m m' →
    host.Executes p m' (List.range' stop ending.length) { m' with address := join, memory := write m'.memory }

/-- The instructions of an arm behind its code, which change the memory by `write`. -/
structure RunsTail (host : Host catalog V S) (s : State) (externals : List ExternalVariable)
    (tail : List Instruction) (write : (Cell → V) → Cell → V) : Prop where
  closed : ∀ {lo}, s.HasCode lo tail → s.code.Closed lo (lo + tail.length) (lo + tail.length)
  runs : ∀ {m : Machine V S}, s.HasCode m.address tail →
    host.Executes (s.program externals) m (List.range' m.address tail.length)
      { m with address := m.address + tail.length, memory := write m.memory }

variable {s : State} {externals : List ExternalVariable} {lo hi join offset : Nat} {tail : List Instruction}
  {write : (Cell → V) → Cell → V} {z : Option ExprId}

theorem runsTail_nil : host.RunsTail s externals [] id where
  closed _ := Bytecode.closed_self _ _
  runs _ := .refl _

/-- A copy is left out where it would change nothing. -/
theorem runsTail_copyCode (source target : Operand) :
    host.RunsTail s externals (copyCode source target)
      (host.copied (s.program externals) source target) := by
  by_cases heq : source = target
  · have hwrite : host.copied (s.program externals) source target = id := by
      funext memory
      rw [heq]
      exact host.store_load memory _
    rw [hwrite, copyCode, if_pos heq]
    exact runsTail_nil
  · rw [copyCode, if_neg heq]
    refine ⟨fun {lo} h => ?_, fun {m} h => ?_⟩
    · refine Bytecode.closed_singleton (at_zero.1 h.head) ?_
      simp [Instruction.successors]
    · exact .single (host.step_copy (p := s.program externals) (at_zero.1 h.head))

/-- An arm that ends where it joins the others. -/
theorem runsArm_of_stretch (h : cx.Lowered s) (htail : host.RunsTail s externals tail write)
    (harm : s.Stretch z tail lo join) : ∃ stop, s.Part z lo stop ∧ join = stop + tail.length ∧
      ∀ {m : Machine V S}, m.address = lo →
        host.RunsArm (s.program externals) m stop join tail write := by
  obtain ⟨stop, hpart, hcode, rfl⟩ := harm
  obtain ⟨hle, hclosed⟩ := h.closed_part hpart
  have hclosed := hclosed.append (htail.closed hcode) hle (by omega)
  refine ⟨stop, hpart, rfl, fun {m} hm => ⟨fun {n x} hx => ?_, fun hrun => ?_, fun {m'} hrun => ?_⟩⟩
  · exact at_zero.1 (hcode ⟨by omega, by simpa using hx⟩)
  · subst hm
    exact hrun.stays hclosed (by omega)
  · obtain ⟨-, rfl, -⟩ := hrun
    exact htail.runs hcode

/-- An arm behind which there is a jump to where it joins the others. -/
theorem runsArm_of_jump (h : cx.Lowered s) (htail : host.RunsTail s externals tail write)
    (harm : s.Stretch z tail lo hi) (hjump : At 0 s.code.instructions hi (.jumpForward (join - hi)))
    (hlt : hi < join) : ∃ stop, s.Part z lo stop ∧ hi = stop + tail.length ∧
      ∀ {m : Machine V S}, m.address = lo →
        host.RunsArm (s.program externals) m stop join (tail ++ [.jumpForward (join - hi)]) write := by
  obtain ⟨stop, hpart, hcode, rfl⟩ := harm
  obtain ⟨hle, hclosed⟩ := h.closed_part hpart
  have hskip : s.code.Closed (stop + tail.length) (stop + tail.length + 1) join := by
    refine Bytecode.closed_singleton (at_zero.1 hjump) ?_
    simp only [Instruction.successors, List.mem_singleton, forall_eq]
    omega
  have hclosed := hclosed.append ((htail.closed hcode).append hskip (by omega) (by omega)) hle (by omega)
  refine ⟨stop, hpart, rfl, fun {m} hm => ⟨fun {n x} hx => ?_, fun hrun => ?_, fun {m'} hrun => ?_⟩⟩
  · rcases Nat.lt_or_ge n tail.length with hn | hn
    · rw [List.getElem?_append_left hn] at hx
      exact at_zero.1 (hcode ⟨by omega, by simpa using hx⟩)
    · rw [List.getElem?_append_right hn] at hx
      obtain ⟨hzero, rfl⟩ : n - tail.length = 0 ∧ x = .jumpForward (join - (stop + tail.length)) := by
        simpa [List.getElem?_singleton, eq_comm] using hx
      obtain rfl : n = tail.length := by omega
      exact at_zero.1 hjump
  · subst hm
    rw [List.length_append, List.length_singleton, ← Nat.add_assoc]
    exact hrun.stays hclosed (by omega)
  · obtain ⟨-, rfl, -⟩ := hrun
    have hlast := host.step_jumpForward (p := s.program externals)
      (m := { m' with address := m'.address + tail.length, memory := write m'.memory }) (at_zero.1 hjump)
    dsimp only at hlast
    rw [show m'.address + tail.length + (join - (m'.address + tail.length)) = join by omega] at hlast
    rw [List.length_append, List.length_singleton, List.range'_concat, Nat.one_mul]
    exact (htail.runs hcode).trans (.single hlast)

/-! ## Forks -/

variable (host) in
/-- Control is at the conditional jump of a fork. The condition decides which arm it enters, with nothing
else changed. An arm is what is lowered for an expression, followed by instructions of its own. -/
structure RunsFork (s : State) (externals : List ExternalVariable) (f : Fork) (m : Machine V S)
    (x y : Option ExprId × List Instruction) (whenTrue whenFalse : (Cell → V) → Cell → V) : Prop where
  whenTrue : host.truth (host.load m.memory ((s.program externals).place f.condition)) = true →
    host.step (s.program externals) m = some { m with address := f.jump + 1 } ∧
      ∃ stop, s.Part x.1 (f.jump + 1) stop ∧ f.skip = stop + x.2.length ∧
        host.RunsArm (s.program externals) { m with address := f.jump + 1 } stop f.join
          (x.2 ++ [.jumpForward (f.join - f.skip)]) whenTrue
  whenFalse : host.truth (host.load m.memory ((s.program externals).place f.condition)) = false →
    host.step (s.program externals) m = some { m with address := f.skip + 1 } ∧
      ∃ stop, s.Part y.1 (f.skip + 1) stop ∧ f.join = stop + y.2.length ∧
        host.RunsArm (s.program externals) { m with address := f.skip + 1 } stop f.join y.2 whenFalse

theorem runsFork (h : cx.Lowered s) {f : Fork} {x y : Option ExprId × List Instruction}
    {whenTrue whenFalse : (Cell → V) → Cell → V} (hf : f.In s x y)
    (htrue : host.RunsTail s externals x.2 whenTrue) (hfalse : host.RunsTail s externals y.2 whenFalse)
    (hm : m.address = f.jump) : host.RunsFork s externals f m x y whenTrue whenFalse := by
  have hjump : (s.program externals).bytecode.instructions[m.address]? =
      some (.jumpIf f.condition (f.skip + 1 - f.jump) false) := by
    rw [hm]
    exact at_zero.1 hf.jump
  have hstep := host.step_jumpIf hjump
  constructor
  · intro hcondition
    rw [hcondition, if_neg (by simp), hm] at hstep
    obtain ⟨stop, hpart, hskip, harm⟩ := runsArm_of_jump h htrue hf.whenTrue hf.skip hf.skip_lt
    exact ⟨hstep, stop, hpart, hskip, harm rfl⟩
  · intro hcondition
    have hlt := hf.jump_lt
    rw [hcondition, if_pos rfl, hm, show f.jump + (f.skip + 1 - f.jump) = f.skip + 1 by omega] at hstep
    obtain ⟨stop, hpart, hjoin, harm⟩ := runsArm_of_stretch h hfalse hf.whenFalse
    exact ⟨hstep, stop, hpart, hjoin, harm rfl⟩

end Host

variable {t : Tree} {env : Environment} {options : CompileOptions} {s : State} {e : ExprId}
  {start stop : Nat}

def pickGraph : Graph where
  nodes := [⟨"Go", .event "Go", [], none⟩, ⟨"Pick", .ifElse, [0, 1, 2, 3], none⟩,
    ⟨"Use", .unit "use", [4], none⟩]
  pins := [
    { node := 1, name := "Condition", direction := .input, typeName := "bool" },
    { node := 1, name := "True", direction := .input, typeName := "int32", defaultValue := "5" },
    { node := 1, name := "False", direction := .input, typeName := "int32" },
    { node := 1, name := "Result", direction := .output, typeName := "int32" },
    { node := 2, name := "Value", direction := .input, typeName := "int32" }]

/-- A call that is fed by a choice between a literal and a value. -/
def pickTree : Tree where
  graph := pickGraph
  exprs := [
    { kind := .entry, name := "Go", children := [1], proxy := some ⟨[], .node 0⟩ },
    { kind := .call, name := "Use", children := [2], proxy := some ⟨[], .node 2⟩ }] ++
    feedExprs 2 6 3 4 ++
    [{ kind := .ifElse, name := "Pick", children := [7, 8, 9, 10], proxy := some ⟨[], .node 1⟩ },
     { kind := .var, name := "Condition", proxy := some ⟨[], .pin 0⟩ },
     { kind := .literal, name := "True", proxy := some ⟨[], .pin 1⟩ },
     { kind := .var, name := "False", proxy := some ⟨[], .pin 2⟩ },
     { kind := .var, name := "Result", proxy := some ⟨[], .pin 3⟩ }]
  roots := [0]
  links := [⟨⟨[], .pin 3⟩, ⟨[], .pin 4⟩⟩]

theorem issues_pickTree : pickTree.issues forkEnv = .ok [] := rfl

theorem ofTree_pickTree : Sharing.ofTree pickTree = .ok ⟨[[⟨[], .pin 3⟩, ⟨[], .pin 4⟩]]⟩ := by cbv

theorem spans_pickTree : ∃ s, pickTree.lowered forkEnv {} = .ok s ∧ ⟨6, 0, 4⟩ ∈ s.spans ∧ s.failed = [] := by
  rw [Tree.lowered_eq ofTree_pickTree]
  exact Checked.exists_ok_of_any (by decide +kernel)

theorem spans_forkTree : ∃ s, forkTree.lowered forkEnv {} = .ok s ∧ ⟨1, 0, 6⟩ ∈ s.spans ∧ s.failed = [] := by
  rw [Tree.lowered_eq ofTree_forkTree]
  exact Checked.exists_ok_of_any (by decide +kernel)

end NodeGraph
