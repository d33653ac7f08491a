import Mathlib
import NodeGraph.Proofs.Compile.Sound
import NodeGraph.Proofs.Lowering.Growth

/-!
# How much code there is

Both passes over a tree without issues end, also if its children run in circles: an expression is lowered at
most once in a pass, so a walk that goes deeper than there are expressions does not occur. An expression pays
for the instructions it emits itself, and those below it pay for theirs. So the calls, the blocks, the exits
and the comparisons in the code are bounded by what the expressions of a tree may spend
(`lowered_within_bounds`).
-/
namespace NodeGraph

open Lowering

/-! ## Costs -/

/-- What the instructions of the code cost. -/
def Bytecode.cost (b : Bytecode) (r : Rates) : Nat := (b.instructions.map (·.price r)).sum

/-- What expressions may spend together. -/
def Tree.charges (t : Tree) (r : Rates) (l : List ExprId) : Nat := (l.map (t.charge r)).sum

namespace Bytecode

variable {b b' : Bytecode} {r : Rates}

theorem cost_push (i : Instruction) (stack : Option CallStack) : (b.push i stack).cost r = b.cost r + i.price r := by
  simp [cost, push]

theorem price_shape (i : Instruction) : i.shape.price r = i.price r := by cases i <;> rfl

theorem cost_eq_of_shape (h : b'.shape = b.shape) : b'.cost r = b.cost r := by
  have hcost (b : Bytecode) : b.cost r = (b.shape.map (·.price r)).sum := by
    rw [cost, shape, List.map_map]
    exact congrArg List.sum (List.map_congr_left fun i _ => (price_shape i).symm)
  rw [hcost, hcost, h]

end Bytecode

/-! ## The walk pays -/

namespace Lowering

/-- What is emitted is paid by the expressions met on the way, and by the one that is being lowered. -/
def paying (t : Tree) (r : Rates) : Account where
  rates := r
  moves _ n s s' := s'.code.cost r + t.charges r s.visited ≤ s.code.cost r + t.charges r s'.visited + n
  lowers _ s s' := s'.code.cost r + t.charges r s.visited ≤ s.code.cost r + t.charges r s'.visited

theorem paying_lawful (cx : Context) (r : Rates) : (paying cx.tree r).Lawful cx := by
  have hself (s : State) : s.code.cost r + cx.tree.charges r s.visited ≤
      s.code.cost r + cx.tree.charges r s.visited := Nat.le_refl _
  have hruled : (paying cx.tree r).Ruled cx :=
    { refl := fun _ s => hself s
      trans := fun {_ m n s s' s''} h h' => by
        have h : s'.code.cost r + cx.tree.charges r s.visited ≤
          s.code.cost r + cx.tree.charges r s'.visited + m := h
        have h' : s''.code.cost r + cx.tree.charges r s'.visited ≤
          s'.code.cost r + cx.tree.charges r s''.visited + n := h'
        show s''.code.cost r + _ ≤ s.code.cost r + _ + (m + n)
        omega
      raise := fun h hmn => Nat.le_trans h (Nat.add_le_add_left hmn _)
      once := fun {e s s'} _ _ _ _ h _ => by
        have h : s'.code.cost r + (cx.tree.charge r e + cx.tree.charges r s.visited) ≤
          s.code.cost r + cx.tree.charges r s'.visited + cx.tree.charge r e := h
        show s'.code.cost r + cx.tree.charges r s.visited ≤ s.code.cost r + cx.tree.charges r s'.visited
        omega
      skip := fun {_ s} _ _ _ => hself s
      of_lowers := fun h => h
      aside := fun {_ s s'} hs => by
        rw [hs]
        exact hself s
      error := fun _ s _ _ _ => hself s
      warning := fun _ s _ _ => hself s
      failed := fun _ s => hself s
      push := fun {_ s i _} stack _ _ => by
        show (s.code.push i stack).cost r + cx.tree.charges r s.visited ≤
          s.code.cost r + cx.tree.charges r s.visited + i.price r
        rw [Bytecode.cost_push]
        omega
      land := fun {_ s _ code} _ hcode => by
        show code.cost r + _ ≤ s.code.cost r + _ + 0
        rw [Bytecode.cost_eq_of_shape (Bytecode.shape_setOffset hcode)]
        exact hself s }
  have hstores : (paying cx.tree r).Stores :=
    { storage := fun {_ s _} _ _ => hself s
      remember := fun _ h => h
      publish := fun _ s _ _ => hself s
      mirror := fun _ s _ => hself s }
  exact hruled.lawful hstores fun he hkind hlower => hruled.pays_lowerEntry he hlower (fun s _ => hself s) hkind

end Lowering

/-! ## What a pass leaves behind -/

namespace Tree

variable {t : Tree} {env : Environment} {options : CompileOptions} {sharing : Sharing}
  {checked prepared s : State} {r : Rates}

/-- In a pass that ended so, every expression that was met was lowered once. -/
structure LoweredOnce (t : Tree) (s : State) : Prop where
  once : (s.spans.map Span.expr).Nodup
  met : ∀ e, e ∈ s.visited ↔ ∃ sp ∈ s.spans, sp.expr = e
  exist : ∀ e ∈ s.visited, e < t.exprs.length

theorem loweredOnce_of_walk {cx : Context} {depth : Nat} (hwalk : cx.Walk depth s) (hnone : ∀ {y}, ¬ s.Pending y) :
    cx.tree.LoweredOnce s where
  once := hwalk.distinct
  met e := by
    constructor
    · intro he
      by_contra hfinished
      exact hnone ⟨he, hfinished⟩
    · rintro ⟨sp, hsp, rfl⟩
      exact (hwalk.located hsp).1
  exist _ he := hwalk.inRange he

/-- Both passes over a valid tree lower every expression they meet once, and only the second one emits code. -/
theorem Passes.loweredOnce (h : t.Passes env options sharing checked prepared s) (ht : t.Valid)
    (hsharing : sharing.ExistsIn t.graph) :
    t.LoweredOnce prepared ∧ t.LoweredOnce s ∧ prepared.code = {} ∧ s.visited.Nodup := by
  have hr (pass : Pass) : Context.Ready ⟨t, env, options, sharing, pass⟩ fun _ => True :=
    ⟨ht, hsharing, env.types.tolerated_all⟩
  obtain ⟨hsound, hquiet⟩ := Checked.Ends.of_ok (Context.ends_checkWatches (hr .setup) Context.sound_init) h.checks
  obtain ⟨hwalk, hlowers, hnone⟩ :=
    Checked.Ends.of_ok (Context.ends_lowerRoots (hr .setup) hsound hquiet.code rfl) h.prepares
  have hcode : prepared.code = {} := by
    rcases hlowers.silent with hpass | hcode
    · cases hpass
    · exact hcode.trans hquiet.code
  obtain ⟨hwalk', -, hnone'⟩ :=
    Checked.Ends.of_ok (Context.ends_lowerRoots (hr .emit) hwalk.sound hcode rfl) h.emits
  exact ⟨loweredOnce_of_walk hwalk hnone, loweredOnce_of_walk hwalk' hnone', hcode, hwalk'.nodup⟩

/-- The code costs no more than all expressions together may spend. -/
theorem Passes.cost_le (h : t.Passes env options sharing checked prepared s) (ht : t.Valid)
    (hsharing : sharing.ExistsIn t.graph) (r : Rates) :
    s.code.cost r ≤ t.charges r (List.range t.exprs.length) := by
  obtain ⟨-, hlowered, hcode, hnodup⟩ := h.loweredOnce ht hsharing
  have hpaid : s.code.cost r + t.charges r prepared.restarted.visited ≤
      prepared.restarted.code.cost r + t.charges r s.visited + 0 :=
    (paying_lawful ⟨t, env, options, sharing, .emit⟩ r).moves_of_lowerRoots (fun _ _ => trivial) trivial h.emits 0
  have hstart : t.charges r prepared.restarted.visited = 0 := rfl
  have hfree : prepared.restarted.code.cost r = 0 := by
    show prepared.code.cost r = 0
    rw [hcode]
    rfl
  have hall : t.charges r s.visited ≤ t.charges r (List.range t.exprs.length) := by
    unfold charges
    rw [← List.sum_toFinset _ hnodup, ← List.sum_toFinset _ List.nodup_range]
    refine Finset.sum_le_sum_of_subset fun e he => ?_
    rw [List.mem_toFinset] at he ⊢
    exact List.mem_range.2 (hlowered.exist e he)
  omega

end Tree

/-! ## Counting -/

namespace Instruction

def isExecute : Instruction → Bool
  | execute .. => true
  | _ => false

def isBeginBlock : Instruction → Bool
  | beginBlock .. => true
  | _ => false

def isEquals : Instruction → Bool
  | equals .. => true
  | _ => false

end Instruction

namespace Tree

variable {t : Tree} {env : Environment} {options : CompileOptions} {sharing : Sharing}
  {checked prepared s : State}

/-- The number of expressions with a property. -/
def countExprs (t : Tree) (p : ExprId → Bool) : Nat := (List.range t.exprs.length).countP p

/-- Whether an expression is a counted loop or a loop over an array. -/
def isLoop (t : Tree) (e : ExprId) : Bool :=
  match t.kind e, t.nodeKindOf e with
  | .ok .call, .ok (some (.forLoop _)) => true
  | .ok .array, .ok (some (.array .iterate)) => true
  | _, _ => false

/-- The number of cases of a selection but the first; `0` for other expressions. -/
def otherCases (t : Tree) (e : ExprId) : Nat :=
  match t.kind e, t.subPinValues e PinName.values with
  | .ok .select, .ok cases => cases.length - 1
  | _, _ => 0

/-- Bounds for the instructions of some code by the expressions of a tree. -/
structure Bounds (t : Tree) (b : Bytecode) : Prop where
  calls : b.instructions.countP Instruction.isExecute ≤ t.countExprs fun e => t.kind e = .ok .call
  blocks : b.instructions.countP Instruction.isBeginBlock ≤ t.countExprs t.isLoop
  exits : b.instructions.count .exit ≤
    t.countExprs fun e => t.kind e = .ok .exit ∨ t.kind e = .ok .entry
  comparisons : b.instructions.countP Instruction.isEquals ≤
    ((List.range t.exprs.length).map t.otherCases).sum

/-- With a price of one for some instructions, the cost is their number. -/
theorem cost_eq_countP {b : Bytecode} {r : Rates} {p : Instruction → Bool}
    (hp : ∀ i, i.price r = if p i then 1 else 0) : b.cost r = b.instructions.countP p := by
  unfold Bytecode.cost
  induction b.instructions with
  | nil => rfl
  | cons i l ih => rw [List.map_cons, List.sum_cons, List.countP_cons, ih, hp, Nat.add_comm]

/-- If only some expressions may spend, and those only one, they spend no more than their number. -/
theorem charges_le_countP {r : Rates} {p : ExprId → Bool} (hp : ∀ e, t.charge r e ≤ if p e then 1 else 0)
    (l : List ExprId) : t.charges r l ≤ l.countP p := by
  unfold charges
  induction l with
  | nil => exact Nat.zero_le _
  | cons e l ih =>
    rw [List.map_cons, List.sum_cons, List.countP_cons, Nat.add_comm]
    exact Nat.add_le_add ih (hp e)

theorem charge_call (e : ExprId) : t.charge { call := 1 } e ≤ if t.kind e = .ok .call then 1 else 0 := by
  unfold charge
  split <;> split <;> simp_all

theorem charge_block (e : ExprId) : t.charge { block := 1 } e ≤ if t.isLoop e then 1 else 0 := by
  unfold charge isLoop
  split <;> split <;> simp_all

theorem charge_exit (e : ExprId) :
    t.charge { exit := 1 } e ≤ if t.kind e = .ok .exit ∨ t.kind e = .ok .entry then 1 else 0 := by
  unfold charge
  split <;> split <;> simp_all

theorem charge_comparison (e : ExprId) : t.charge { comparison := 1 } e = t.otherCases e := by
  unfold charge otherCases
  split <;> split <;> simp_all

/-- The number of instructions of each sort is their cost where no others have a price. -/
theorem Passes.bounds (h : t.Passes env options sharing checked prepared s) (ht : t.Valid)
    (hsharing : sharing.ExistsIn t.graph) : t.Bounds s.code where
  calls := by
    rw [← cost_eq_countP (r := { call := 1 }) fun i => by cases i <;> rfl]
    exact (h.cost_le ht hsharing _).trans (charges_le_countP (fun e => by simpa using charge_call e) _)
  blocks := by
    rw [← cost_eq_countP (r := { block := 1 }) fun i => by cases i <;> rfl]
    exact (h.cost_le ht hsharing _).trans (charges_le_countP charge_block _)
  exits := by
    rw [List.count, ← cost_eq_countP (r := { exit := 1 }) fun i => by cases i <;> rfl]
    exact (h.cost_le ht hsharing _).trans (charges_le_countP (fun e => by simpa using charge_exit e) _)
  comparisons := by
    rw [← cost_eq_countP (r := { comparison := 1 }) fun i => by cases i <;> rfl]
    refine (h.cost_le ht hsharing _).trans (Nat.le_of_eq ?_)
    exact congrArg List.sum (List.map_congr_left fun e _ => charge_comparison e)

end Tree

/-! ## A tree that runs in circles -/

/-- The body of the loop leads back to the loop, and the call in it to the entry. -/
def ringTree : Tree where
  graph := {
    nodes := [⟨"Go", .event "Go", [], none⟩, ⟨"Loop", .forLoop "below", [0, 1, 2, 3], none⟩,
      ⟨"Tick", .unit "tick", [], none⟩]
    pins := [
      { node := 1, name := "ExecuteContext", direction := .inOut, typeName := executeType },
      { node := 1, name := "Count", direction := .input, typeName := "int32", defaultValue := "3" },
      { node := 1, name := "Index", direction := .output, typeName := "int32" },
      { node := 1, name := "Continue", direction := .hidden, typeName := "bool" }] }
  exprs := [
    { kind := .entry, name := "Go", children := [1, 8], proxy := some ⟨[], .node 0⟩ },
    { kind := .call, name := "Loop", children := [2, 3, 4, 5], proxy := some ⟨[], .node 1⟩ },
    { kind := .var, name := "ExecuteContext", children := [6], proxy := some ⟨[], .pin 0⟩ },
    { kind := .literal, name := "Count", proxy := some ⟨[], .pin 1⟩ },
    { kind := .var, name := "Index", proxy := some ⟨[], .pin 2⟩ },
    { kind := .var, name := "Continue", proxy := some ⟨[], .pin 3⟩ },
    { kind := .block, name := "Body", children := [7, 1] },
    { kind := .call, name := "Tick", children := [0], proxy := some ⟨[], .node 2⟩ },
    { kind := .exit, name := "End" }]
  roots := [0]

def ringEnv : Environment where
  catalog := ⟨[⟨"below", [⟨"Count", .input⟩, ⟨"Index", .input⟩, ⟨"Continue", .output⟩]⟩, ⟨"tick", []⟩]⟩

end NodeGraph
