import Mathlib.Logic.Relation
import NodeGraph.Lowering.Expr
import NodeGraph.Proofs.Bytecode.Layout
import NodeGraph.Proofs.Lowering.Operands

/-!
# Walking the tree

Every function of the walk appends code with a layout, leaves blocks and call stack as they were, and
finishes every expression it meets: `Lowers` relates the state before to the state after. It is
reflexive and transitive, so a function that lowers one thing after the other needs no proof of its
own. `Within` is what holds of the state while an expression is lowered: the expressions met and not
finished are those around it, and there is room for the walk to go deeper.

`Emits` is the form in which the functions that lower an expression are specified, as `Resolves` is
for those that find operands.
-/
namespace NodeGraph

/-! ## Expressions -/

namespace Tree

variable {t : Tree} {x y : ExprId}

/-- The lowering of `x` may lower `y`: a child, or a block below a child. -/
def Calls (t : Tree) (x y : ExprId) : Prop :=
  t.IsChild x y ∨ ∃ v, t.IsChild x v ∧ t.IsChild v y ∧ t.kind y = .ok .block

/-- `e` calls a function of the catalog. -/
def IsUnitCall (t : Tree) (e : ExprId) (function : String) : Prop :=
  t.kind e = .ok .call ∧ t.nodeKindOf e = .ok (some (.unit function))

/-- `e` is lowered by lowering all its children, in order, and at most one instruction behind. -/
def IsStraight (t : Tree) (e : ExprId) : Prop :=
  (∃ function, t.IsUnitCall e function) ∨
    ∃ kind, t.kind e = .ok kind ∧ (kind.isValue || kind.isTransfer || kind = .cachedValue) = true

/-- What the lowering of `x` meets first: itself, and what it calls. -/
def Involves (t : Tree) (x y : ExprId) : Prop := y = x ∨ t.Calls x y

/-- There is an entry below an expression, or it is one. -/
def HasEntry (t : Tree) (x : ExprId) : Prop :=
  ∃ y, Relation.ReflTransGen t.IsChild x y ∧ t.kind y = .ok .entry

theorem Calls.transGen (h : t.Calls x y) : Relation.TransGen t.IsChild x y := by
  rcases h with h | ⟨v, hv, hy, -⟩
  · exact .single h
  · exact .tail (.single hv) hy

theorem Involves.reflTransGen (h : t.Involves x y) : Relation.ReflTransGen t.IsChild x y := by
  rcases h with rfl | h
  · exact .refl
  · exact h.transGen.to_reflTransGen

theorem Involves.hasEntry (h : t.Involves x y) (hy : t.HasEntry y) : t.HasEntry x := by
  obtain ⟨z, hz, hkind⟩ := hy
  exact ⟨z, h.reflTransGen.trans hz, hkind⟩

end Tree

namespace Lowering

/-- The code of `e` has been noted. -/
def State.Finished (s : State) (e : ExprId) : Prop := ∃ sp ∈ s.spans, sp.expr = e

/-- `e` has been met and is not finished. -/
def State.Pending (s : State) (e : ExprId) : Prop := e ∈ s.visited ∧ ¬ s.Finished e

/-! ## The code of an expression -/

namespace Context

/-- What the code of an expression has to offer. The code of a call ends in the call, which no jump goes
over. In that of a straight expression no jump goes over the code of a child, unless the child was lowered
for another expression. That of control flow has its shape, as long as it stays what it is, and the blocks of
a loop are where they should be if they were not met before it. -/
structure OwnCode (cx : Context) (s : State) (base : Nat) (e : ExprId) (code : List Instruction)
    (ss : List Span) : Prop where
  executes : ∀ {function}, cx.tree.IsUnitCall e function → cx.pass = .emit →
    ∃ front number operands, code = front ++ [.execute number operands] ∧
      cx.env.catalog.index? function = some number ∧
      ∀ {a t}, Forward base code a t → t ≤ base + front.length
  direct : cx.tree.IsStraight e → ∀ {y}, cx.tree.IsChild e y →
    y ∈ s.failed ∨ Relation.ReflTransGen cx.tree.IsChild y e ∨
      y ∈ cx.tree.roots ∨ (∃ x, x ≠ e ∧ cx.tree.Calls x y) ∨
      ∃ sp ∈ ss, sp.expr = y ∧ ∀ {a t}, Forward base code a t → a < sp.start → t ≤ sp.start
  formed : cx.pass = .emit → ∃ older, e :: older <:+ s.visited ∧
    ∀ {s'}, s.Retains s' → s'.HasCode base code → ∀ kind, cx.tree.kind e = .ok kind →
      cx.Formed s' e (e :: older) kind base (base + code.length)

def Own (cx : Context) (s : State) (base : Nat) (e : ExprId) (code : List Instruction) (ss : List Span) :
    Prop :=
  e ∈ s.failed ∨ cx.OwnCode s base e code ss

/-- The children of a straight expression are finished before it is, those of a call before the
call. -/
def Fed (cx : Context) (s : State) (sp : Span) : Prop :=
  sp.expr ∈ s.failed ∨ (cx.tree.IsStraight sp.expr → ∀ {y}, cx.tree.IsChild sp.expr y →
    y ∈ s.failed ∨ Relation.ReflTransGen cx.tree.IsChild y sp.expr ∨
      ∃ sp' ∈ s.spans, sp'.expr = y ∧ sp'.stop ≤ sp.stop ∧
        ((∃ function, cx.tree.IsUnitCall sp.expr function) → cx.pass = .emit → sp'.stop < sp.stop))

variable {cx : Context} {s s' s'' : State} {i : Instruction} {block code block' : List Instruction}
  {new ss new' : List Span} {base openBlocks : Nat} {stack : CallStack}

theorem Own.mono (h : s.Retains s') {e : ExprId} (hown : cx.Own s base e code ss) : cx.Own s' base e code ss := by
  rcases hown with hown | hown
  · exact .inl (h.failed hown)
  · refine .inr ⟨hown.executes, fun he y hy => ?_, fun hpass => ?_⟩
    · rcases hown.direct he hy with hf | hrest
      · exact .inl (h.failed hf)
      · exact .inr hrest
    · obtain ⟨older, horder, hformed⟩ := hown.formed hpass
      exact ⟨older, horder.trans h.order, fun hle => hformed (h.trans hle)⟩

/-- Code with a layout has it in any state that retains what is known. -/
theorem layout_mono {ms : List Nat} (hlay : Layout (cx.Own s) base code ss ms) (h : s.Retains s') :
    Layout (cx.Own s') base code ss ms :=
  hlay.mono fun _ _ _ _ => .mono h

theorem Fed.mono {sp : Span} (hfailed : s.failed ⊆ s'.failed) (hspans : s.spans ⊆ s'.spans)
    (h : cx.Fed s sp) : cx.Fed s' sp := by
  rcases h with h | h
  · exact .inl (hfailed h)
  · refine .inr fun he y hy => ?_
    rcases h he hy with hf | hr | ⟨sp', hsp', hrest⟩
    · exact .inl (hfailed hf)
    · exact .inr (.inl hr)
    · exact .inr (.inr ⟨sp', hspans hsp', hrest⟩)

/-! ## What lowering does -/

/-- What lowering may do besides emitting code. The expressions in `C` may be lowered directly, the
others only on behalf of an expression met on the way, so they are below `C`. -/
structure Grows (cx : Context) (C : ExprId → Prop) (s s' : State) : Prop extends s.Retains s' where
  callStack : s'.callStack = s.callStack
  pending : ∀ {y}, s'.Pending y → s.Pending y
  met : ∀ {y}, y ∈ s'.visited →
    y ∈ s.visited ∨ C y ∨ ∃ x ∈ s'.visited, x ∉ s.visited ∧ cx.tree.Calls x y
  below : ∀ {y}, y ∈ s'.visited → y ∈ s.visited ∨ Below cx.tree C y
  fed : ∀ {sp}, sp ∈ s'.spans → sp ∈ s.spans ∨ sp.expr ∉ s.visited ∧ cx.Fed s' sp
  size_le : s.code.size ≤ s'.code.size
  entries : ∀ {entry}, entry ∈ s'.code.entries.toList → entry ∈ s.code.entries.toList ∨
    s.code.size ≤ entry.2 ∧ entry.2 ≤ s'.code.size ∧ ∃ y, C y ∧ cx.tree.HasEntry y

/-- `block` is appended to the code, and the expressions of `new` are finished. -/
structure Appends (s s' : State) (block : List Instruction) (new : List Span) : Prop where
  code : s'.code.instructions = s.code.instructions ++ block
  spans : s'.spans = new ++ s.spans

/-- What lowering does: it appends code with a layout, and only in the emit pass. -/
structure Lowers (cx : Context) (C : ExprId → Prop) (s s' : State) : Prop extends cx.Grows C s s' where
  silent : cx.pass = .emit ∨ s'.code = s.code
  openBlocks : s'.openBlocks = s.openBlocks
  laid : ∃ block new ms, Appends s s' block new ∧ Layout (cx.Own s') s.code.size block new ms

variable {C C' : ExprId → Prop}

theorem Grows.refl (s : State) : cx.Grows C s s :=
  ⟨.refl s, rfl, fun h => h, .inl, .inl, .inl, Nat.le_refl _, .inl⟩

theorem Grows.trans (h : cx.Grows C s s') (h' : cx.Grows C s' s'') : cx.Grows C s s'' where
  toRetains := h.toRetains.trans h'.toRetains
  callStack := h'.callStack.trans h.callStack
  pending hy := h.pending (h'.pending hy)
  met {y} hy := by
    rcases h'.met hy with hy | hy | ⟨x, hx, hnew, hcalls⟩
    · rcases h.met hy with hy | hy | ⟨x, hx, hnew, hcalls⟩
      · exact .inl hy
      · exact .inr (.inl hy)
      · exact .inr (.inr ⟨x, h'.visited hx, hnew, hcalls⟩)
    · exact .inr (.inl hy)
    · exact .inr (.inr ⟨x, hx, fun hmem => hnew (h.visited hmem), hcalls⟩)
  below hy := by
    rcases h'.below hy with hy | hy
    · exact h.below hy
    · exact .inr hy
  fed {sp} hsp := by
    rcases h'.fed hsp with hsp | ⟨hnew, hsp⟩
    · rcases h.fed hsp with hsp | ⟨hnew, hsp⟩
      · exact .inl hsp
      · exact .inr ⟨hnew, hsp.mono h'.failed h'.spans⟩
    · exact .inr ⟨fun hmem => hnew (h.visited hmem), hsp⟩
  size_le := Nat.le_trans h.size_le h'.size_le
  entries hentry := by
    rcases h'.entries hentry with hentry | ⟨hstart, hstop, hbelow⟩
    · rcases h.entries hentry with hentry | ⟨hstart, hstop, hbelow⟩
      · exact .inl hentry
      · exact .inr ⟨hstart, Nat.le_trans hstop h'.size_le, hbelow⟩
    · exact .inr ⟨Nat.le_trans h.size_le hstart, hstop, hbelow⟩

theorem Grows.mono (h : cx.Grows C s s') (hC : ∀ y, C y → C' y) : cx.Grows C' s s' :=
  { h with
    met := fun hy => (h.met hy).imp_right (.imp_left (hC _))
    below := fun hy => (h.below hy).imp_right fun ⟨x, hx, hbelow⟩ => ⟨x, hC x hx, hbelow⟩
    entries := fun hentry => (h.entries hentry).imp_right fun ⟨hstart, hstop, y, hy, hbelow⟩ =>
      ⟨hstart, hstop, y, hC y hy, hbelow⟩ }

theorem Grows.holds (h : cx.Grows C s s') {o : Operand} (ho : s.Holds cx.env o) : s'.Holds cx.env o :=
  Storage.Holds.mono ho h.storage

theorem Grows.accepts (h : cx.Grows C s s') (hi : s.Accepts cx.env i) : s'.Accepts cx.env i :=
  ⟨hi.1, fun o ho => h.holds (hi.2 o ho)⟩

theorem Lowers.refl (s : State) : cx.Lowers C s s :=
  { Grows.refl s with
    silent := .inr rfl
    openBlocks := rfl
    laid := ⟨[], [], _, ⟨by simp, by simp⟩, .nil⟩ }

theorem Appends.size (h : Appends s s' block new) : s'.code.size = s.code.size + block.length := by
  rw [Bytecode.size, h.code, List.length_append]
  rfl

theorem Appends.trans (h : Appends s s' block new) (h' : Appends s' s'' block' new') :
    Appends s s'' (block ++ block') (new' ++ new) :=
  ⟨by rw [h'.code, h.code, List.append_assoc], by rw [h'.spans, h.spans, List.append_assoc]⟩

theorem Appends.eq (h : Appends s s' block new) (h' : Appends s s' block' new') : block = block' :=
  List.append_cancel_left (h.code.symm.trans h'.code)

/-- What holds as long as all that is known in `s'` is retained and the code appended since `s` stays. -/
def Ensures (s s' : State) (P : State → Prop) : Prop :=
  ∀ ⦃block new⦄, Appends s s' block new → ∀ ⦃s''⦄, s'.Retains s'' → s''.HasCode s.code.size block → P s''

section Ensures

variable {P Q : State → Prop}

theorem Ensures.of_appends (happ : Appends s s' block new)
    (h : ∀ {s''}, s'.Retains s'' → s''.HasCode s.code.size block → P s'') : Ensures s s' P := by
  intro block' new' happ' s'' hle hcode
  rw [happ'.eq happ] at hcode
  exact h hle hcode

theorem Ensures.mono (h : Ensures s s' P) (hpq : ∀ {s''}, s'.Retains s'' → P s'' → Q s'') :
    Ensures s s' Q :=
  fun _ _ happ _ hle hcode => hpq hle (h happ hle hcode)

/-- What the code in front ensures. -/
theorem Ensures.front (h : Ensures s s' P) (l : cx.Lowers C s s') (h' : cx.Lowers C' s' s'') :
    Ensures s s'' P := by
  obtain ⟨block, new, ms, happ, -⟩ := l.laid
  obtain ⟨block', new', ms', happ', -⟩ := h'.laid
  exact .of_appends (happ.trans happ') fun hle hcode => h happ (h'.toRetains.trans hle) hcode.left

/-- What the code behind ensures. -/
theorem Ensures.behind (h : Ensures s' s'' P) (l : cx.Lowers C s s') (h' : cx.Lowers C' s' s'') :
    Ensures s s'' P := by
  obtain ⟨block, new, ms, happ, -⟩ := l.laid
  obtain ⟨block', new', ms', happ', -⟩ := h'.laid
  refine .of_appends (happ.trans happ') fun hle hcode => h happ' hle ?_
  rw [happ.size]
  exact hcode.right

end Ensures

theorem Lowers.trans (h : cx.Lowers C s s') (h' : cx.Lowers C s' s'') : cx.Lowers C s s'' where
  toGrows := h.toGrows.trans h'.toGrows
  silent := by
    rcases h.silent with hpass | heq
    · exact .inl hpass
    · rw [← heq]
      exact h'.silent
  openBlocks := h'.openBlocks.trans h.openBlocks
  laid := by
    obtain ⟨block, new, ms, happ, hlay⟩ := h.laid
    obtain ⟨block', new', ms', happ', hlay'⟩ := h'.laid
    rw [happ.size] at hlay'
    exact ⟨_, _, _, happ.trans happ', .append (layout_mono hlay h'.toRetains) hlay'⟩

theorem Lowers.mono (h : cx.Lowers C s s') (hC : ∀ y, C y → C' y) : cx.Lowers C' s s' :=
  { h with toGrows := h.toGrows.mono hC }

theorem retains_of_quiet (h : Quiet s s') : s.Retains s' where
  storage := h.storage
  failed := by rw [h.failed]; exact fun _ h => h
  order := by simp [h.visited]
  skipped he := .inl (by rwa [h.visited] at he)
  spans := by rw [h.spans]; exact fun _ h => h
  operands := h.operands

theorem grows_of_quiet (h : Quiet s s') : cx.Grows C s s' where
  toRetains := retains_of_quiet h
  callStack := h.callStack
  pending {y} hy := by
    unfold State.Pending State.Finished at hy ⊢
    rwa [h.visited, h.spans] at hy
  met hy := .inl (by rwa [h.visited] at hy)
  below hy := .inl (by rwa [h.visited] at hy)
  fed hsp := .inl (by rwa [h.spans] at hsp)
  size_le := Nat.le_of_eq (by rw [h.code])
  entries hentry := .inl (by rwa [h.code] at hentry)

theorem lowers_of_quiet (h : Quiet s s') : cx.Lowers C s s' :=
  { grows_of_quiet h with
    silent := .inr h.code
    openBlocks := h.openBlocks
    laid := ⟨[], [], _, ⟨by rw [h.code]; simp, by rw [h.spans]; simp⟩, .nil⟩ }

/-- Everything but the instructions and the number of open blocks stays. -/
theorem grows_of_code {code : Bytecode} (openBlocks : Nat) (hsize : s.code.size ≤ code.size)
    (hentries : code.entries = s.code.entries) :
    cx.Grows C s { s with code := code, openBlocks := openBlocks } :=
  { Grows.refl s with
    size_le := hsize
    entries := fun hentry => .inl (by rwa [hentries] at hentry) }

/-! ## The state of the walk -/

/-- The state between two expressions, with room for walks that are less than `depth` deep. -/
structure Walk (cx : Context) (depth : Nat) (s : State) : Prop where
  sound : s.Sound cx.tree cx.env
  nodup : s.visited.Nodup
  inRange : ∀ {y}, y ∈ s.visited → y < cx.tree.exprs.length
  room : cx.tree.exprs.length < s.visited.length + depth
  located : ∀ {sp}, sp ∈ s.spans → sp.expr ∈ s.visited ∧ sp.stop ≤ s.code.size
  called : ∀ {y}, y ∈ s.visited → y ∈ cx.tree.roots ∨ ∃ x ∈ s.visited, cx.tree.Calls x y
  distinct : (s.spans.map Span.expr).Nodup
  entered : ∀ {entry}, entry ∈ s.code.entries.toList → entry.2 ≤ s.code.size ∧
    ∀ {sp}, sp ∈ s.spans → entry.2 ≤ sp.start ∨ sp.stop ≤ entry.2 ∨ cx.tree.HasEntry sp.expr

/-- The state while `e` is lowered: what is pending leads to `e`. -/
structure Within (cx : Context) (depth : Nat) (e : ExprId) (s : State) : Prop
    extends cx.Walk depth s where
  current : e ∈ s.visited
  pending : ∀ {y}, s.Pending y → Relation.ReflTransGen cx.tree.IsChild y e

variable {depth : Nat} {e : ExprId}

theorem Within.lt (h : cx.Within depth e s) : e < cx.tree.exprs.length := h.inRange h.current

theorem Walk.of_quiet (h : cx.Walk depth s) (hsound : s'.Sound cx.tree cx.env) (hq : Quiet s s') :
    cx.Walk depth s' where
  sound := hsound
  nodup := by rw [hq.visited]; exact h.nodup
  inRange hy := h.inRange (by rwa [hq.visited] at hy)
  room := by rw [hq.visited]; exact h.room
  located hsp := by
    rw [hq.code, hq.visited]
    exact h.located (by rwa [hq.spans] at hsp)
  called hy := by rw [hq.visited] at hy ⊢; exact h.called hy
  distinct := by rw [hq.spans]; exact h.distinct
  entered hentry := by
    rw [hq.code] at hentry ⊢
    rw [hq.spans]
    exact h.entered hentry

theorem Within.of_quiet (h : cx.Within depth e s) (hsound : s'.Sound cx.tree cx.env)
    (hq : Quiet s s') : cx.Within depth e s' where
  toWalk := h.toWalk.of_quiet hsound hq
  current := by rw [hq.visited]; exact h.current
  pending hy := by
    have hg : cx.Grows (fun _ => True) s s' := grows_of_quiet hq
    exact h.pending (hg.pending hy)

/-- What was met on the way is below the expressions lowered directly, and its code is among what was
appended. -/
theorem Lowers.found (h : cx.Lowers C s s') (hw : cx.Walk depth s) {y : ExprId} (hy : y ∈ s'.visited)
    (hnew : y ∉ s.visited) : Below cx.tree C y ∧ s'.Locates y s.code.size s'.code.size := by
  refine ⟨(h.below hy).resolve_left hnew, ?_⟩
  have hfinished : s'.Finished y := by
    by_contra hnot
    exact hnew (h.pending ⟨hy, hnot⟩).1
  obtain ⟨sp, hsp, rfl⟩ := hfinished
  obtain ⟨block, new, ms, happ, hlay⟩ := h.laid
  rw [happ.spans] at hsp
  have hmem : sp ∈ new := (List.mem_append.1 hsp).resolve_right fun hold => hnew (hw.located hold).1
  obtain ⟨front, B, rest, -, -, hblock, hstart, hstop, -⟩ := hlay.exists_part sp hmem
  refine ⟨sp, by rw [happ.spans]; exact hsp, rfl, by omega, ?_⟩
  rw [happ.size, hblock]
  simp only [List.length_append]
  omega

theorem Within.of_code (h : cx.Within depth e s) {code : Bytecode} (openBlocks : Nat)
    (hsize : s.code.size ≤ code.size) (hcode : ∀ i ∈ code.instructions, s.Accepts cx.env i)
    (hentries : ∀ entry ∈ code.entries.toList,
      entry ∈ s.code.entries.toList ∨ entry.2 = s.code.size) :
    cx.Within depth e { s with code := code, openBlocks := openBlocks } :=
  { h with
    sound := { h.sound with code := hcode }
    located := fun hsp => ⟨(h.located hsp).1, Nat.le_trans (h.located hsp).2 hsize⟩
    entered := fun {entry} hentry => by
      rcases hentries entry hentry with hentry | heq
      · exact ⟨Nat.le_trans (h.entered hentry).1 hsize, (h.entered hentry).2⟩
      · rw [heq]
        exact ⟨hsize, fun hsp => .inr (.inl (h.located hsp).2)⟩
    pending := fun hy => h.pending hy }

/-! ## Running steps -/

variable {α β : Type} {F : Fault → Prop} {P P' : α → State → Prop} {Q : β → State → Prop} {a : α}
  {f : α → Step β} {x : Checked α}

/-- The step lowers something on behalf of `e`. -/
def Runs (cx : Context) (F : Fault → Prop) (depth : Nat) (e : ExprId) (s : State) (m : Step α)
    (P : α → State → Prop) : Prop :=
  Step.Ends F s m fun a s' => cx.Within depth e s' ∧ cx.Lowers (cx.tree.Involves e) s s' ∧ P a s'

/-- The attempt lowers something on behalf of `e`, also if it ends in an error. -/
def Emits (cx : Context) (F : Fault → Prop) (depth : Nat) (e : ExprId) (s : State) (m : Attempt α)
    (P : α → State → Prop) : Prop :=
  Attempt.Ends F s m
    (fun a s' => cx.Within depth e s' ∧ cx.Lowers (cx.tree.Involves e) s s' ∧ P a s')
    fun error s' => cx.Within depth e s' ∧ cx.Lowers (cx.tree.Involves e) s s' ∧
      (error = .dependencyFailed → s'.failed ≠ [])

namespace Runs

variable {m : Step α}

theorem mono (h : cx.Runs F depth e s m P)
    (hp : ∀ a s', cx.Within depth e s' → cx.Lowers (cx.tree.Involves e) s s' → P a s' → P' a s') :
    cx.Runs F depth e s m P' :=
  Step.Ends.mono h fun a s' ⟨h1, h2, h3⟩ => ⟨h1, h2, hp a s' h1 h2 h3⟩

theorem pure (hw : cx.Within depth e s) (hp : P a s) : cx.Runs F depth e s (pure a) P :=
  ⟨hw, .refl s, hp⟩

theorem bind (hm : cx.Runs F depth e s m P)
    (hf : ∀ a s', cx.Within depth e s' → cx.Lowers (cx.tree.Involves e) s s' → P a s' →
      cx.Runs F depth e s' (f a) Q) : cx.Runs F depth e s (m >>= f) Q := by
  refine Step.ends_bind.2 (Step.Ends.mono hm fun a s1 h => ?_)
  obtain ⟨h1, l1, p1⟩ := h
  exact Step.Ends.mono (hf a s1 h1 l1 p1) fun b s2 h => ⟨h.1, l1.trans h.2.1, h.2.2⟩

theorem ok_bind (hx : x = .ok a) (hf : cx.Runs F depth e s (f a) Q) :
    cx.Runs F depth e s (liftM x >>= f) Q := by
  subst hx
  exact hf

end Runs

namespace Emits

variable {m : Attempt α} {f : α → Attempt β}

theorem mono (h : cx.Emits F depth e s m P)
    (hp : ∀ a s', cx.Within depth e s' → cx.Lowers (cx.tree.Involves e) s s' → P a s' → P' a s') :
    cx.Emits F depth e s m P' :=
  Attempt.Ends.mono h (fun a s' ⟨h1, h2, h3⟩ => ⟨h1, h2, hp a s' h1 h2 h3⟩) fun _ _ he => he

theorem pure (hw : cx.Within depth e s) (hp : P a s) : cx.Emits F depth e s (pure a) P :=
  ⟨hw, .refl s, hp⟩

theorem throw (hw : cx.Within depth e s) {error : LowerError} (he : error ≠ .dependencyFailed) :
    cx.Emits F depth e s (throw error) P :=
  ⟨hw, .refl s, fun h => absurd h he⟩

theorem bind (hm : cx.Emits F depth e s m P)
    (hf : ∀ a s', cx.Within depth e s' → cx.Lowers (cx.tree.Involves e) s s' → P a s' →
      cx.Emits F depth e s' (f a) Q) : cx.Emits F depth e s (m >>= f) Q := by
  refine Attempt.ends_bind.2 (Attempt.Ends.mono hm (fun a s1 h => ?_) fun _ _ he => he)
  obtain ⟨h1, l1, p1⟩ := h
  refine Attempt.Ends.mono (hf a s1 h1 l1 p1) (fun b s2 h => ?_) fun error s2 h => ?_
  · exact ⟨h.1, l1.trans h.2.1, h.2.2⟩
  · exact ⟨h.1, l1.trans h.2.1, h.2.2⟩

theorem ok_bind (hx : x = .ok a) (hf : cx.Emits F depth e s (f a) Q) :
    cx.Emits F depth e s (liftM x >>= f) Q := by
  subst hx
  exact hf

theorem step {m : Step α} (h : cx.Runs F depth e s m P) : cx.Emits F depth e s (liftM m) P :=
  Attempt.ends_step.2 h

theorem step_bind {m : Step α} {f : α → Step β} (h : cx.Runs F depth e s (m >>= f) Q) :
    cx.Emits F depth e s (liftM m >>= fun a => liftM (f a)) Q := by
  refine Attempt.ends_bind.2 (Attempt.ends_step.2 ?_)
  exact (Step.ends_bind.1 h).mono fun a s' h => Attempt.ends_step.2 h

/-- Finding an operand is a way of lowering that emits nothing. -/
theorem of_resolves (hw : cx.Within depth e s) (h : Resolves cx.tree cx.env F s m P) :
    cx.Emits F depth e s m P := by
  refine Attempt.Ends.mono h (fun a s' h => ?_) fun error s' h => ?_
  · exact ⟨hw.of_quiet h.1 h.2.1, lowers_of_quiet h.2.1, h.2.2⟩
  · exact ⟨hw.of_quiet h.1 h.2.1, lowers_of_quiet h.2.1, fun he => by rw [h.2.1.failed]; exact h.2.2 he⟩

theorem forM {l : List α} {f : α → Attempt PUnit} (hw : cx.Within depth e s)
    (hf : ∀ a ∈ l, ∀ s', cx.Within depth e s' → cx.Lowers (cx.tree.Involves e) s s' →
      cx.Emits F depth e s' (f a) fun _ s'' => cx.Lowers C s' s'') :
    cx.Emits F depth e s (l.forM f) fun _ s' => cx.Lowers C s s' := by
  refine Attempt.Ends.mono (Attempt.ends_forM
    (fun _ s' => cx.Within depth e s' ∧ cx.Lowers (cx.tree.Involves e) s s' ∧ cx.Lowers C s s')
    ⟨hw, .refl s, .refl s⟩ ?_) (fun _ _ h => h) fun _ _ he => he
  rintro done a rest rfl s1 ⟨h1, l1, c1⟩
  refine Attempt.Ends.mono (hf a (by simp) s1 h1 l1) (fun _ s2 h => ⟨h.1, l1.trans h.2.1, c1.trans h.2.2⟩)
    fun error s2 h => ⟨h.1, l1.trans h.2.1, h.2.2⟩

end Emits

theorem ends_reportWarning (hs : s.Sound cx.tree cx.env) (subject : Subject) (message : String) :
    Step.Ends F s (cx.reportWarning subject message) fun _ s' =>
      s'.Sound cx.tree cx.env ∧ Quiet s s' := by
  have herrors : (s.report.warning cx.options subject message).errors = s.report.errors := by
    unfold Report.warning
    split <;> rfl
  refine Step.ends_modify.2 ⟨?_, { Quiet.refl s with errors := Nat.le_of_eq herrors.symm }⟩
  exact { hs with reported := fun hf => by rw [herrors]; exact hs.reported hf }

theorem runs_reportWarning (hw : cx.Within depth e s) (subject : Subject) (message : String) :
    cx.Runs F depth e s (cx.reportWarning subject message) fun _ _ => True :=
  (ends_reportWarning hw.sound subject message).mono fun _ _ h =>
    ⟨hw.of_quiet h.1 h.2, lowers_of_quiet h.2, trivial⟩

/-! ## Emission -/

theorem blocksAfter_of_rise (h : i.rise = 0) (openBlocks : Nat) :
    blocksAfter openBlocks i = .ok openBlocks := by
  cases i <;> simp_all [Instruction.rise, blocksAfter] <;> rfl

/-- An instruction is appended, whatever call stack is recorded with it. -/
structure Pushes (s s' : State) (i : Instruction) (openBlocks : Nat) : Prop where
  eq : ∃ recorded, s' = { s with code := s.code.push i recorded, openBlocks := openBlocks }

theorem ends_emitUnder (hpass : cx.pass = .emit) (hblocks : blocksAfter s.openBlocks i = .ok openBlocks) :
    Step.Ends F s (cx.emitUnder stack i) fun _ s' => Pushes s s' i openBlocks := by
  unfold emitUnder
  rw [hpass]
  dsimp only
  rw [Step.ends_bind, Step.ends_get, Step.ends_bind, Step.ends_lift, hblocks, Checked.ends_ok,
    Step.ends_set]
  exact ⟨_, rfl⟩

theorem ends_emit (hpass : cx.pass = .emit) (hblocks : blocksAfter s.openBlocks i = .ok openBlocks) :
    Step.Ends F s (cx.emit i) fun _ s' => Pushes s s' i openBlocks := by
  unfold emit
  rw [Step.ends_bind, Step.ends_get]
  exact ends_emitUnder hpass hblocks

section Pushes

variable (h : Pushes s s' i openBlocks)

include h

theorem Pushes.appends : Appends s s' [i] [] := by
  obtain ⟨recorded, rfl⟩ := h.eq
  exact ⟨rfl, rfl⟩

theorem Pushes.size : s'.code.size = s.code.size + 1 := h.appends.size

theorem Pushes.openBlocks_eq : s'.openBlocks = openBlocks := by
  obtain ⟨recorded, rfl⟩ := h.eq
  rfl

theorem Pushes.visited_eq : s'.visited = s.visited := by
  obtain ⟨recorded, rfl⟩ := h.eq
  rfl

theorem Pushes.retains : s.Retains s' := by
  obtain ⟨recorded, rfl⟩ := h.eq
  exact { State.Retains.refl s with }

theorem Pushes.grows : cx.Grows C s s' := by
  obtain ⟨recorded, rfl⟩ := h.eq
  exact grows_of_code _ (by simp [Bytecode.size, Bytecode.push]) rfl

theorem Pushes.within (hw : cx.Within depth e s) (hi : s.Accepts cx.env i) : cx.Within depth e s' := by
  obtain ⟨recorded, rfl⟩ := h.eq
  refine hw.of_code _ (by simp [Bytecode.size, Bytecode.push]) (fun j hj => ?_) fun _ => .inl
  rcases List.mem_append.1 hj with hj | hj
  · exact hw.sound.code j hj
  · rw [List.mem_singleton.1 hj]
    exact hi

end Pushes

/-- A plain instruction is lowered code. -/
theorem runs_emitUnder (hw : cx.Within depth e s) (hpass : cx.pass = .emit) (hplain : i.isPlain = true)
    (hi : s.Accepts cx.env i) :
    cx.Runs F depth e s (cx.emitUnder stack i) fun _ s' =>
      Appends s s' [i] [] ∧ s'.visited = s.visited := by
  refine Step.Ends.mono
    (ends_emitUnder hpass (blocksAfter_of_rise (Instruction.rise_of_isPlain hplain) _)) fun _ s' h => ?_
  refine ⟨h.within hw hi, ⟨h.grows, .inl hpass, h.openBlocks_eq, ?_⟩, h.appends, h.visited_eq⟩
  exact ⟨_, _, _, h.appends, .plain hplain⟩

theorem runs_emit (hw : cx.Within depth e s) (hpass : cx.pass = .emit) (hplain : i.isPlain = true)
    (hi : s.Accepts cx.env i) :
    cx.Runs F depth e s (cx.emit i) fun _ s' => Appends s s' [i] [] ∧ s'.visited = s.visited := by
  unfold emit
  exact Step.ends_bind.2 (runs_emitUnder hw hpass hplain hi)

end Context
end Lowering
end NodeGraph
