import Mathlib.Logic.Relation
import NodeGraph.Lowering.Expr
import NodeGraph.Proofs.Bytecode.Layout
import NodeGraph.Proofs.Lowering.Storage
import NodeGraph.Proofs.Tree.Valid

/-!
# The code of control flow

What the code of branches, conditional values, selections and loops looks like: which jumps it has, where
they go, and where the code of its parts is. The shapes are stated for a state of the lowering and a range
of addresses. They speak of nothing that later lowering takes back (`Retains`), as long as the code between
the two addresses stays what it is (`HasCode`).

A loop has places for the code of two blocks. An expression is lowered where it is met first, so a block
may also have its code elsewhere: `Loop.HasBlocks` says where that can be.
-/
namespace NodeGraph

namespace Lowering

/-! ## Pieces of code -/

variable {s : State} {B A : List Instruction} {start : Nat}

/-- The copy of a value, which is left out if both operands are the same. -/
def copyCode (source target : Operand) : List Instruction :=
  if source = target then [] else [.copy source target]

/-- The comparisons of an index with labels, each followed by a jump to a target. -/
def comparisons (index scratch : Operand) : Nat → List Operand → List Nat → List Instruction
  | base, label :: labels, target :: targets =>
    .equals index label scratch :: .jumpIf scratch (target - (base + 1)) true ::
      comparisons index scratch (base + 2) labels targets
  | _, _, _ => []

namespace State

variable {s' s'' : State} {base lo hi : Nat} {z : Option ExprId} {A tail block : List Instruction} {e : ExprId}
  {x : Instruction}

/-! ## What later lowering keeps -/

/-- What is known in `s` is known in `s'`. Expressions are met in an order, and not after they failed. -/
structure Retains (s s' : State) : Prop where
  storage : s.storage.Le s'.storage
  failed : s.failed ⊆ s'.failed
  order : s.visited <:+ s'.visited
  skipped : ∀ {e}, e ∈ s'.visited → e ∈ s.visited ∨ e ∉ s.failed
  spans : s.spans ⊆ s'.spans
  operands : ∀ {e o}, s.operands.lookup e = some o → s'.operands.lookup e = some o

theorem Retains.visited (h : s.Retains s') : s.visited ⊆ s'.visited := h.order.subset

theorem Retains.refl (s : State) : s.Retains s :=
  ⟨.refl _, fun _ h => h, List.suffix_refl _, .inl, fun _ h => h, fun h => h⟩

theorem Retains.trans (h : s.Retains s') (h' : s'.Retains s'') : s.Retains s'' where
  storage := h.storage.trans h'.storage
  failed := List.Subset.trans h.failed h'.failed
  order := h.order.trans h'.order
  skipped he := by
    rcases h'.skipped he with he | he
    · exact h.skipped he
    · exact .inr fun hf => he (h.failed hf)
  spans := List.Subset.trans h.spans h'.spans
  operands ho := h'.operands (h.operands ho)

/-- `block` is the code from `base` on. -/
def HasCode (s : State) (base : Nat) (block : List Instruction) : Prop :=
  ∀ ⦃a x⦄, At base block a x → At 0 s.code.instructions a x

theorem HasCode.left (h : s.HasCode base (A ++ B)) : s.HasCode base A := fun _ _ hx =>
  h (at_append.2 (.inl hx))

theorem HasCode.right (h : s.HasCode base (A ++ B)) : s.HasCode (base + A.length) B := fun _ _ hx =>
  h (at_append.2 (.inr hx))

theorem HasCode.head (h : s.HasCode base (x :: A)) : At 0 s.code.instructions base x :=
  h (at_cons.2 (.inl ⟨rfl, rfl⟩))

theorem HasCode.rest (h : s.HasCode base (x :: A)) : s.HasCode (base + 1) A := fun _ _ hx =>
  h (at_cons.2 (.inr hx))

/-- There are only copies between two addresses. -/
def Copies (s : State) (lo hi : Nat) : Prop :=
  lo ≤ hi ∧ ∀ ⦃a x⦄, lo ≤ a → a < hi → At 0 s.code.instructions a x → ∃ source target, x = .copy source target

theorem Copies.refl (s : State) (lo : Nat) : s.Copies lo lo := ⟨Nat.le_refl lo, fun a _ hlo hhi => by omega⟩

theorem Copies.trans {middle : Nat} (h : s.Copies lo middle) (h' : s.Copies middle hi) : s.Copies lo hi := by
  refine ⟨Nat.le_trans h.1 h'.1, fun a x hlo hhi hx => ?_⟩
  rcases Nat.lt_or_ge a middle with hlt | hge
  · exact h.2 hlo hlt hx
  · exact h'.2 hge hhi hx

theorem HasCode.copies (h : s.HasCode base block)
    (hblock : ∀ x ∈ block, ∃ source target, x = Instruction.copy source target) :
    s.Copies base (base + block.length) := by
  refine ⟨Nat.le_add_right _ _, fun a x hlo hhi hx => hblock x ?_⟩
  obtain ⟨y, hy⟩ : ∃ y, block[a - base]? = some y := ⟨_, List.getElem?_eq_getElem (by omega)⟩
  obtain rfl : x = y := Option.some.inj (hx.2.symm.trans (h ⟨hlo, hy⟩).2)
  exact List.mem_of_getElem? hy

/-- What is lowered for an expression between two addresses: its code, or nothing if there is no
expression or if it was met before. -/
def Part (s : State) (z : Option ExprId) (lo hi : Nat) : Prop :=
  match z with
  | none => lo = hi
  | some e => ⟨e, lo, hi⟩ ∈ s.spans ∨ lo = hi ∧ (e ∈ s.failed ∨ e ∈ s.visited)

theorem Part.mono (h : s.Part z lo hi) (hle : s.Retains s') : s'.Part z lo hi := by
  cases z with
  | none => exact h
  | some e =>
    rcases h with h | ⟨heq, h | h⟩
    · exact .inl (hle.spans h)
    · exact .inr ⟨heq, .inl (hle.failed h)⟩
    · exact .inr ⟨heq, .inr (hle.visited h)⟩

/-- All the code of an expression is between two addresses. -/
def Locates (s : State) (e : ExprId) (lo hi : Nat) : Prop :=
  ∃ sp ∈ s.spans, sp.expr = e ∧ lo ≤ sp.start ∧ sp.stop ≤ hi

theorem Locates.of_mem (h : ⟨e, lo, hi⟩ ∈ s.spans) : s.Locates e lo hi :=
  ⟨_, h, rfl, Nat.le_refl lo, Nat.le_refl hi⟩

theorem Locates.mono (h : s.Locates e lo hi) (hle : s.Retains s') : s'.Locates e lo hi := by
  obtain ⟨sp, hsp, hrest⟩ := h
  exact ⟨sp, hle.spans hsp, hrest⟩

theorem Locates.widen {lo' hi' : Nat} (h : s.Locates e lo hi) (hlo : lo' ≤ lo) (hhi : hi ≤ hi') :
    s.Locates e lo' hi' := by
  obtain ⟨sp, hsp, hexpr, hstart, hstop⟩ := h
  exact ⟨sp, hsp, hexpr, Nat.le_trans hlo hstart, Nat.le_trans hstop hhi⟩

/-- Between two addresses there is what is lowered for an expression, followed by `tail`. -/
def Stretch (s : State) (z : Option ExprId) (tail : List Instruction) (lo hi : Nat) : Prop :=
  ∃ middle, s.Part z lo middle ∧ s.HasCode middle tail ∧ hi = middle + tail.length

theorem Part.stretch (h : s.Part z lo hi) : s.Stretch z [] lo hi :=
  ⟨hi, h, fun _ _ hx => absurd hx not_at_nil, rfl⟩

end State

/-! ## Alternatives -/

/-- Where two alternatives are, and the operand that decides between them. -/
structure Fork where
  condition : Operand
  /-- The conditional jump; the first alternative is behind it. -/
  jump : Nat
  /-- The jump over the second alternative, which is behind it. -/
  skip : Nat
  /-- Where both alternatives lead. -/
  join : Nat

/-- The code of two alternatives, each lowered for an expression and followed by instructions of its own. -/
structure Fork.In (f : Fork) (s : State) (whenTrue whenFalse : Option ExprId × List Instruction) :
    Prop where
  jump : At 0 s.code.instructions f.jump (.jumpIf f.condition (f.skip + 1 - f.jump) false)
  skip : At 0 s.code.instructions f.skip (.jumpForward (f.join - f.skip))
  jump_lt : f.jump < f.skip
  skip_lt : f.skip < f.join
  whenTrue : s.Stretch whenTrue.1 whenTrue.2 (f.jump + 1) f.skip
  whenFalse : s.Stretch whenFalse.1 whenFalse.2 (f.skip + 1) f.join

theorem State.fork_in {base : Nat} {condition : Operand} {x y : Option ExprId × List Instruction}
    (hcode : s.HasCode base (.jumpIf condition (A.length + 2) false ::
      (A ++ .jumpForward (B.length + 1) :: B)))
    (hA : s.HasCode (base + 1) A → s.Stretch x.1 x.2 (base + 1) (base + 1 + A.length))
    (hB : s.HasCode (base + 1 + A.length + 1) B →
      s.Stretch y.1 y.2 (base + 1 + A.length + 1) (base + 1 + A.length + 1 + B.length)) :
    Fork.In ⟨condition, base, base + 1 + A.length, base + 1 + A.length + 1 + B.length⟩ s x y where
  jump := by
    have hjump := hcode.head
    rwa [show A.length + 2 = base + 1 + A.length + 1 - base by omega] at hjump
  skip := by
    have hskip := hcode.rest.right.head
    rwa [show B.length + 1 = base + 1 + A.length + 1 + B.length - (base + 1 + A.length) by omega] at hskip
  jump_lt := by dsimp only; omega
  skip_lt := by dsimp only; omega
  whenTrue := hA hcode.rest.left
  whenFalse := hB hcode.rest.right.rest

/-! ## Cases -/

namespace State

/-- Cases from the given addresses on, which all lead to `stop`. -/
def Cases (s : State) (result : Operand) (stop : Nat) : List (ExprId × Operand) → List Nat → Prop
  | [arm], [start] => s.Stretch (some arm.1) (copyCode arm.2 result) start stop
  | arm :: next :: arms, start :: follow :: starts =>
    ∃ skip, s.Stretch (some arm.1) (copyCode arm.2 result) start skip ∧
      At 0 s.code.instructions skip (.jumpForward (stop - skip)) ∧ skip < stop ∧ follow = skip + 1 ∧
      s.Cases result stop (next :: arms) (follow :: starts)
  | _, _ => False

/-- A case in front of others, which are behind a jump over them. -/
theorem Cases.cons {result : Operand} {arm : ExprId × Operand} {arms : List (ExprId × Operand)}
    {starts : List Nat} (hcode : s.HasCode start (A ++ .jumpForward (B.length + 1) :: B)) (hne : arms ≠ [])
    (hhead : starts.head? = some (start + A.length + 1))
    (harm : s.HasCode start A → s.Stretch (some arm.1) (copyCode arm.2 result) start (start + A.length))
    (harms : s.HasCode (start + A.length + 1) B →
      s.Cases result (start + A.length + 1 + B.length) arms starts) :
    s.Cases result (start + A.length + 1 + B.length) (arm :: arms) (start :: starts) := by
  have hcases := harms hcode.right.rest
  cases arms with
  | nil => exact absurd rfl hne
  | cons next arms =>
    cases starts with
    | nil => cases hhead
    | cons follow starts =>
      have hjump := hcode.right.head
      rw [show B.length + 1 = start + A.length + 1 + B.length - (start + A.length) by omega] at hjump
      exact ⟨start + A.length, harm hcode.left, hjump, by omega, Option.some.inj hhead, hcases⟩

end State

/-- Where the code of a selection is, and the operands it works on. -/
structure Selection where
  index : Operand
  scratch : Operand
  result : Operand
  labels : List Operand
  /-- The cases, with the operands of their values. -/
  arms : List (ExprId × Operand)
  /-- The first comparison. -/
  first : Nat
  /-- The first instructions of the cases. -/
  starts : List Nat

/-! ## Loops -/

/-- Where the code of a loop is, and the operands it works on. -/
structure Loop where
  step : Instruction
  count : Operand
  index : Operand
  proceed : Operand
  /-- The instruction that sets the index to zero. The step, the conditional jump and the beginning of the
  block follow. -/
  zero : Nat
  /-- The end of the block. The increment and the jump back follow. -/
  last : Nat

/-- The code of a loop behind the instruction that sets its index to zero. -/
structure Loop.In (l : Loop) (s : State) (body : Option ExprId) : Prop where
  lt_last : l.zero + 3 < l.last
  step : At 0 s.code.instructions (l.zero + 1) l.step
  jump : At 0 s.code.instructions (l.zero + 2) (.jumpIf l.proceed (l.last + 1 - l.zero) false)
  enter : At 0 s.code.instructions (l.zero + 3) (.beginBlock l.count l.index)
  body : s.Part body (l.zero + 4) l.last
  leave : At 0 s.code.instructions l.last .endBlock
  increment : At 0 s.code.instructions (l.last + 1) (.increment l.index)
  back : At 0 s.code.instructions (l.last + 2) (.jumpBackward (l.last + 1 - l.zero))

theorem State.loop_in {first : Nat} {step : Instruction} {proceed count index : Operand} {z : Option ExprId}
    (hcode : s.HasCode (first + 1) (loopCode step proceed count index B))
    (hbody : s.HasCode (first + 4) B → s.Part z (first + 4) (first + 4 + B.length)) :
    Loop.In ⟨step, count, index, proceed, first, first + 4 + B.length⟩ s z := by
  have hoffset : first + 4 + B.length + 1 - first = B.length + 5 := by omega
  have hat {a : Nat} {x : Instruction} (h : At (first + 1) (loopCode step proceed count index B) a x) := hcode h
  simp only [Layout.at_loopCode] at hat
  have hlast : first + 4 + B.length = first + 1 + (B.length + 3) := by omega
  refine ⟨?_, hat (by simp), ?_, hat (by simp), hbody fun a x hx => hat (by simp [hx]), hat (by simp [hlast]),
    hat (.inr (.inr (.inr (.inr (.inr (.inl ⟨?_, rfl⟩)))))), ?_⟩
  · dsimp only
    omega
  · dsimp only
    rw [hoffset]
    exact hat (by simp)
  · dsimp only
    omega
  · dsimp only
    rw [hoffset]
    refine hat (.inr (.inr (.inr (.inr (.inr (.inr ⟨?_, rfl⟩))))))
    omega

/-- An expression is below one of those in `C`. -/
def Below (t : Tree) (C : ExprId → Prop) (z : ExprId) : Prop :=
  ∃ x, C x ∧ Relation.ReflTransGen t.IsChild x z

/-- Where the blocks of a loop are that were not `met` before it: at their places, or in front of the loop,
below an expression in `C` that is lowered there. The block of what is to be done when the loop is completed
may also be below the body. -/
structure Loop.HasBlocks (l : Loop) (t : Tree) (s : State) (met : List ExprId) (C : ExprId → Prop)
    (inside behind : Option ExprId) (start stop : Nat) : Prop where
  body : ∀ {z}, inside = some z → z ∈ s.visited → z ∉ met →
    s.Locates z (l.zero + 4) l.last ∨ Below t C z ∧ s.Locates z start l.zero
  completed : ∀ {z}, behind = some z → z ∈ s.visited → z ∉ met →
    s.Locates z (l.last + 3) stop ∨ Below t C z ∧ s.Locates z start l.zero ∨
      Below t (inside = some ·) z ∧ s.Locates z (l.zero + 4) l.last

/-- What was met shortly before a loop is below an expression lowered then. -/
theorem Loop.HasBlocks.earlier {l : Loop} {t : Tree} {met met' : List ExprId} {C : ExprId → Prop}
    {inside behind : Option ExprId} {start' stop : Nat} (h : l.HasBlocks t s met' C inside behind start' stop)
    (hstart : start ≤ start') (hmet : ∀ {z}, z ∈ met' → z ∉ met → Below t C z ∧ s.Locates z start l.zero) :
    l.HasBlocks t s met C inside behind start stop where
  body {z} hz hvisited hnew := by
    by_cases hmem : z ∈ met'
    · exact .inr (hmet hmem hnew)
    · rcases h.body hz hvisited hmem with hat | ⟨hbelow, hat⟩
      · exact .inl hat
      · exact .inr ⟨hbelow, hat.widen hstart (Nat.le_refl _)⟩
  completed {z} hz hvisited hnew := by
    by_cases hmem : z ∈ met'
    · exact .inr (.inl (hmet hmem hnew))
    · rcases h.completed hz hvisited hmem with hat | ⟨hbelow, hat⟩ | hat
      · exact .inl hat
      · exact .inr (.inl ⟨hbelow, hat.widen hstart (Nat.le_refl _)⟩)
      · exact .inr (.inr hat)

/-! ## The code of expressions -/

end Lowering

namespace Tree

open Lowering

variable (t : Tree) (s : State) (e : ExprId)

/-- A value of a pin of `e` has the operand. -/
def PinOperand (pin : String) (o : Operand) : Prop :=
  ∃ var, t.varForPin e pin = .ok (some var) ∧ s.operands.lookup var = some o

/-- The value of a pin of `e` has the operand, and is lowered between two addresses. -/
def PinValue (pin : String) (o : Operand) (lo hi : Nat) : Prop :=
  ∃ var, t.varForPin e pin = .ok (some var) ∧ s.operands.lookup var = some o ∧ s.Part (some var) lo hi

/-- The block below an execution pin of `e` is lowered between two addresses. -/
def PinBlock (pin : String) (lo hi : Nat) : Prop :=
  ∃ block, t.blockForPin e pin = .ok block ∧ s.Part block lo hi

/-- The code of a branch. -/
structure BranchCode (f : Fork) (start stop : Nat) : Prop where
  condition : ∃ first, start ≤ first ∧ t.PinValue s e PinName.condition f.condition first f.jump
  fork : ∃ whenTrue whenFalse, t.blockForPin e PinName.whenTrue = .ok whenTrue ∧
    t.blockForPin e PinName.whenFalse = .ok whenFalse ∧ f.In s (whenTrue, []) (whenFalse, [])
  completed : t.PinBlock s e PinName.completed f.join stop

/-- The code of a conditional value. -/
structure IfCode (f : Fork) (trueValue falseValue result : Operand) (start stop : Nat) : Prop where
  condition : ∃ first middle, start ≤ first ∧ t.PinValue s e PinName.result result first middle ∧
    t.PinValue s e PinName.condition f.condition middle f.jump
  fork : ∃ whenTrue whenFalse, t.varForPin e PinName.whenTrue = .ok (some whenTrue) ∧
    t.varForPin e PinName.whenFalse = .ok (some whenFalse) ∧
    s.operands.lookup whenTrue = some trueValue ∧ s.operands.lookup whenFalse = some falseValue ∧
    f.In s (some whenTrue, copyCode trueValue result) (some whenFalse, copyCode falseValue result)
  join : f.join = stop

/-- The code of a selection. -/
structure SelectCode (x : Selection) (start stop : Nat) : Prop where
  values : t.subPinValues e PinName.values = .ok (x.arms.map (·.1))
  operands : ∀ arm ∈ x.arms, s.operands.lookup arm.1 = some arm.2
  length : x.labels.length + 1 = x.arms.length
  labels : ∀ {n label}, x.labels[n]? = some label → s.storage.Named s!"Const::int32::{n + 1}" label
  scratch : x.labels ≠ [] → s.storage.Named "Scratch::Compare" x.scratch
  pins : ∃ before middle, s.Copies start before ∧ t.PinValue s e PinName.result x.result before middle ∧
    t.PinValue s e PinName.index x.index middle x.first
  comparisons : s.HasCode x.first (comparisons x.index x.scratch x.first x.labels x.starts.tail)
  first : x.starts.head? = some (x.first + 2 * x.labels.length)
  cases : s.Cases x.result stop x.arms x.starts

/-- The code of a loop. -/
structure LoopCode (l : Loop) (start stop : Nat) : Prop where
  start_le : start ≤ l.zero
  index : t.PinOperand s e PinName.index l.index
  count : t.PinOperand s e PinName.count l.count
  proceed : t.PinOperand s e PinName.proceed l.proceed
  zero : At 0 s.code.instructions l.zero (.zero l.index)
  loop : ∃ body, t.blockForPin e PinName.execute = .ok body ∧ l.In s body
  completed : t.PinBlock s e PinName.completed (l.last + 3) stop

/-- The value of one of the pins of `e`. -/
def PinVar (pins : List String) (z : ExprId) : Prop := ∃ pin ∈ pins, t.varForPin e pin = .ok (some z)

/-- Where the blocks of a loop are that were not `met` before it. The values of the pins are lowered in front
of the loop. -/
def LoopBlocks (met : List ExprId) (pins : List String) (l : Loop) (start stop : Nat) : Prop :=
  ∃ body completed, t.blockForPin e PinName.execute = .ok body ∧
    t.blockForPin e PinName.completed = .ok completed ∧
    l.HasBlocks t s met (t.PinVar e pins) body completed start stop

variable {t s e} {s' : State} {pin : String} {o : Operand} {lo hi : Nat}

theorem PinOperand.mono (h : t.PinOperand s e pin o) (hle : s.Retains s') : t.PinOperand s' e pin o := by
  obtain ⟨var, hvar, ho⟩ := h
  exact ⟨var, hvar, hle.operands ho⟩

theorem PinValue.mono (h : t.PinValue s e pin o lo hi) (hle : s.Retains s') :
    t.PinValue s' e pin o lo hi := by
  obtain ⟨var, hvar, ho, hpart⟩ := h
  exact ⟨var, hvar, hle.operands ho, hpart.mono hle⟩

theorem PinValue.pinOperand (h : t.PinValue s e pin o lo hi) : t.PinOperand s e pin o := by
  obtain ⟨var, hvar, ho, -⟩ := h
  exact ⟨var, hvar, ho⟩

end Tree

namespace Lowering.Context

variable (cx : Context) (s : State) (e : ExprId) {met : List ExprId} {kind : ExprKind}

/-- What the code of an expression looks like if it is of a kind of control flow. -/
def KindCode (kind : ExprKind) (start stop : Nat) : Prop :=
  match kind with
  | .branch => ∃ f, cx.tree.BranchCode s e f start stop
  | .ifElse => ∃ f trueValue falseValue result, cx.tree.IfCode s e f trueValue falseValue result start stop
  | .select => cx.tree.subPinValues e PinName.values ≠ .ok [] → ∃ x, cx.tree.SelectCode s e x start stop
  | .call => ∀ function, cx.tree.nodeKindOf e = .ok (some (.forLoop function)) →
      ∃ l number operands, cx.tree.LoopCode s e l start stop ∧ l.step = .execute number operands ∧
        cx.env.catalog.index? function = some number
  | .array => cx.tree.nodeKindOf e = .ok (some (.array .iterate)) →
      ∃ l operands, cx.tree.LoopCode s e l start stop ∧ l.step = .array .iterate operands
  | _ => True

/-- The code of an expression has the shape that its kind asks for. -/
def Shaped (start stop : Nat) : Prop := ∀ kind, cx.tree.kind e = .ok kind → cx.KindCode s e kind start stop

variable {cx s e} {start start' stop : Nat}

/-- There may be copies in front. -/
theorem KindCode.widen (h : cx.KindCode s e kind start stop) (hfront : s.Copies start' start) :
    cx.KindCode s e kind start' stop := by
  have hle := hfront.1
  cases kind with
  | branch =>
    obtain ⟨f, hf⟩ := h
    obtain ⟨first, hfirst, hcondition⟩ := hf.condition
    exact ⟨f, { hf with condition := ⟨first, Nat.le_trans hle hfirst, hcondition⟩ }⟩
  | ifElse =>
    obtain ⟨f, trueValue, falseValue, result, hf⟩ := h
    obtain ⟨first, middle, hfirst, hpins⟩ := hf.condition
    exact ⟨f, _, _, _, { hf with condition := ⟨first, middle, Nat.le_trans hle hfirst, hpins⟩ }⟩
  | select =>
    intro hcases
    obtain ⟨x, hx⟩ := h hcases
    obtain ⟨before, middle, hbefore, hpins⟩ := hx.pins
    exact ⟨x, { hx with pins := ⟨before, middle, hfront.trans hbefore, hpins⟩ }⟩
  | call =>
    intro function hkind
    obtain ⟨l, number, operands, hl, hstep⟩ := h function hkind
    exact ⟨l, number, operands, { hl with start_le := Nat.le_trans hle hl.start_le }, hstep⟩
  | array =>
    intro hkind
    obtain ⟨l, operands, hl, hstep⟩ := h hkind
    exact ⟨l, operands, { hl with start_le := Nat.le_trans hle hl.start_le }, hstep⟩
  | _ => trivial

variable (cx s e) in
/-- Where the blocks of an expression are if it is a loop. -/
def KindBlocks (met : List ExprId) (kind : ExprKind) (start stop : Nat) : Prop :=
  match kind with
  | .call => ∀ function, cx.tree.nodeKindOf e = .ok (some (.forLoop function)) →
      ∃ l number signature operands, cx.env.catalog.find? function = some (number, signature) ∧
        l.step = .execute number operands ∧ cx.tree.LoopCode s e l start stop ∧
        cx.tree.LoopBlocks s e met (loopPins signature.parameters) l start stop
  | .array => cx.tree.nodeKindOf e = .ok (some (.array .iterate)) →
      ∃ l operands, l.step = .array .iterate operands ∧ cx.tree.LoopCode s e l start stop ∧
        cx.tree.LoopBlocks s e met ArrayOp.iterate.pinNames l start stop
  | _ => True

variable (cx s e) in
/-- The code of an expression of a kind looks as it should, and so do the places of its blocks. -/
structure Formed (met : List ExprId) (kind : ExprKind) (start stop : Nat) : Prop where
  code : cx.KindCode s e kind start stop
  blocks : cx.KindBlocks s e met kind start stop

/-- The code of a loop is part of what is said of its blocks. -/
theorem KindBlocks.formed_call (h : cx.KindBlocks s e met .call start stop) :
    cx.Formed s e met .call start stop := by
  refine ⟨fun function hkind => ?_, h⟩
  obtain ⟨l, number, signature, operands, hfind, hstep, hl, -⟩ := h function hkind
  exact ⟨l, number, operands, hl, hstep, (Catalog.find?_eq_some.1 hfind).1⟩

theorem KindBlocks.formed_array (h : cx.KindBlocks s e met .array start stop) :
    cx.Formed s e met .array start stop := by
  refine ⟨fun hkind => ?_, h⟩
  obtain ⟨l, operands, hstep, hl, -⟩ := h hkind
  exact ⟨l, operands, hl, hstep⟩

theorem KindBlocks.widen (h : cx.KindBlocks s e met kind start stop) (hle : start' ≤ start) :
    cx.KindBlocks s e met kind start' stop := by
  have hblocks {pins : List String} {l : Loop} (hl : cx.tree.LoopBlocks s e met pins l start stop) :
      cx.tree.LoopBlocks s e met pins l start' stop := by
    obtain ⟨body, completed, hbody, hcompleted, hl⟩ := hl
    exact ⟨body, completed, hbody, hcompleted, hl.earlier hle fun hmem hnew => absurd hmem hnew⟩
  cases kind with
  | call =>
    intro function hkind
    obtain ⟨l, number, signature, operands, hfind, hstep, hl, hat⟩ := h function hkind
    exact ⟨l, number, signature, operands, hfind, hstep,
      { hl with start_le := Nat.le_trans hle hl.start_le }, hblocks hat⟩
  | array =>
    intro hkind
    obtain ⟨l, operands, hstep, hl, hat⟩ := h hkind
    exact ⟨l, operands, hstep, { hl with start_le := Nat.le_trans hle hl.start_le }, hblocks hat⟩
  | _ => trivial

theorem Formed.widen (h : cx.Formed s e met kind start stop) (hfront : s.Copies start' start) :
    cx.Formed s e met kind start' stop :=
  ⟨h.code.widen hfront, h.blocks.widen hfront.1⟩

end Lowering.Context
end NodeGraph
