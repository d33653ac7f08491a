import Mathlib.Data.List.Forall2
import NodeGraph.Proofs.Lowering.Growth

/-!
# Two walks in step

Two contexts with the same tree, environment and pass walk the tree in the same way, as far as their
difference does not show. A `Coupling` relates the states, operands and addresses of the two walks. Its
laws speak of the parts that look at the difference: finding operands, emitting instructions, entering call
sites, keeping the record of the walk. From these the walk over all roots is coupled, whatever the coupling
(`walks_roots`).

In a strict coupling both walks end in the same way, errors and faults included. Otherwise only walks
that end in good states matter, and a state that leads to a good one is good.
-/
namespace NodeGraph

namespace Tree

/-- An expression stands for a proxy or is fed from it. -/
def Mentions (t : Tree) (p : Proxy) : Prop :=
  ∃ e x, t.expr? e = some x ∧ (x.proxy = some p ∨ x.source = some p)

end Tree

/-- Instructions that differ only in their operands. Copies and jumps with a distance are left out. -/
inductive Instruction.Like (twin : Operand → Operand → Prop) : Instruction → Instruction → Prop
  | execute {function operands operands'} : List.Forall₂ twin operands operands' →
      Like twin (.execute function operands) (.execute function operands')
  | zero {o o'} : twin o o' → Like twin (.zero o) (.zero o')
  | increment {o o'} : twin o o' → Like twin (.increment o) (.increment o')
  | equals {l l' r r' o o'} : twin l l' → twin r r' → twin o o' →
      Like twin (.equals l r o) (.equals l' r' o')
  | jumpForward : Like twin (.jumpForward 0) (.jumpForward 0)
  | jumpIf {o o' expected} : twin o o' → Like twin (.jumpIf o 0 expected) (.jumpIf o' 0 expected)
  | beginBlock {count count' index index'} : twin count count' → twin index index' →
      Like twin (.beginBlock count index) (.beginBlock count' index')
  | endBlock : Like twin .endBlock .endBlock
  | array {op operands operands'} : List.Forall₂ twin operands operands' →
      Like twin (.array op operands) (.array op operands')
  | exit : Like twin .exit .exit

namespace Lowering

/-! ## Couplings -/

/-- What two walks have to do with each other. -/
structure Coupling (cx cx' : Context) where
  rel : State → State → Prop
  /-- The states that matter. -/
  good : State → State → Prop
  /-- Whether the walks fail together. -/
  strict : Prop
  twin : Operand → Operand → Prop
  addr : Nat → Nat → Prop
  /-- The addresses of jumps that have to land. -/
  jump : Nat → Nat → Prop
  /-- The expressions the walks may come to. -/
  known : ExprId → Prop

namespace Coupling

variable {α β γ δ : Type} {cx cx' : Context} (C : Coupling cx cx')

/-- Two runs end together: in good states with `P`, or both in vain. -/
def Meets (P : α → State → β → State → Prop) : Checked (α × State) → Checked (β × State) → Prop
  | .ok (a, u), .ok (b, s) => C.good u s → P a u b s
  | .error f, .error f' => C.strict → f = f'
  | _, _ => ¬C.strict

/-- From related states, two steps come to related states and to results with `Q`. -/
def Steps (m : Step α) (m' : Step β) (Q : α → β → Prop) : Prop :=
  ∀ ⦃u s⦄, C.rel u s → C.Meets (fun a u b s => C.rel u s ∧ Q a b) (m u) (m' s)

/-- Two attempts agree: both have a result, or strictly the same error. -/
def Agrees (Q : α → β → Prop) : Except LowerError α → State → Except LowerError β → State → Prop
  | .ok a, u, .ok b, s => C.rel u s ∧ Q a b
  | .error e, u, .error e', s => C.strict → C.rel u s ∧ e = e'
  | _, _, _, _ => ¬C.strict

/-- From related states, two attempts come to related states and to results with `Q`. -/
def Attempts (m : Attempt α) (m' : Attempt β) (Q : α → β → Prop) : Prop :=
  ∀ ⦃u s⦄, C.rel u s → C.Meets (C.Agrees Q) (m.run u) (m'.run s)

end Coupling

/-- Moves to a call stack: its arguments are known and its locals are set. -/
def Context.enter (cx : Context) (stack : CallStack) : Step Unit := do
  cx.enterFrames stack
  cx.initializeLocals stack
  modify fun s => { s with callStack := stack }

/-- In a strict coupling all states matter, and otherwise those from which a state that matters follows. -/
class Coupling.Coherent {cx cx' : Context} (C : Coupling cx cx') : Prop where
  good_of_strict : C.strict → ∀ u s, C.good u s
  good_of_extends {u u' s s'} : cx.Extends u u' → cx'.Extends s s' → C.good u' s' → C.good u s

/-- The laws of a coupling, one for each part of the walk that may look at the difference. -/
class Coupling.Lawful {cx cx' : Context} (C : Coupling cx cx') : Prop extends C.Coherent where
  tree : cx'.tree = cx.tree
  env : cx'.env = cx.env
  pass : cx'.pass = cx.pass
  -- Which states matter, and which expressions.
  failed_of_good {u s} : ¬C.strict → C.good u s → u.failed = [] ∧ s.failed = []
  known_child {e x c} : C.known e → cx.tree.expr? e = some x → x.kind ≠ .exit → c ∈ x.children → C.known c
  -- The record of the walk.
  callStack {u s} : C.rel u s → u.callStack = s.callStack
  failed {u s} : C.rel u s → ∀ e, e ∈ u.failed ↔ e ∈ s.failed
  visited {u s} : C.rel u s → ∀ e, e ∈ u.visited ↔ e ∈ s.visited
  visit {u s e} : C.known e → C.rel u s →
    C.rel { u with visited := e :: u.visited } { s with visited := e :: s.visited }
  addr_size {u s} : C.rel u s → C.addr u.code.size s.code.size
  span {u s} : C.rel u s → ∀ e {start start'}, C.addr start start' →
    C.rel { u with spans := ⟨e, start, u.code.size⟩ :: u.spans }
      { s with spans := ⟨e, start', s.code.size⟩ :: s.spans }
  enter {e x u s} : C.known e → cx.tree.expr? e = some x → C.rel u s →
    C.Meets (fun _ u _ s => C.rel u s) (cx.enter ((x.proxy.map Proxy.callStack).getD u.callStack) u)
      (cx'.enter ((x.proxy.map Proxy.callStack).getD u.callStack) s)
  leave {u u' s s'} : C.rel u s → cx.Extends u u' → cx'.Extends s s' → C.rel u' s' →
    C.rel { u' with callStack := u.callStack } { s' with callStack := s.callStack }
  fail (e error) : C.strict → C.Steps (fail e error) (fail e error) fun _ _ => True
  warning (subject message) :
    C.Steps (cx.reportWarning subject message) (cx'.reportWarning subject message) fun _ _ => True
  -- Emission.
  emit {i i'} : i.Like C.twin i' → C.Steps (cx.emit i) (cx'.emit i') fun _ _ => True
  copyValue {o o' q q'} : C.twin o o' → C.twin q q' →
    C.Steps (cx.copyValue o q) (cx'.copyValue o' q') fun _ _ => True
  reserve {i i'} : i.Like C.twin i' → i.isJump → C.Steps (cx.reserve i) (cx'.reserve i') C.jump
  land {a a'} : C.jump a a' → C.Steps (land a) (land a') fun _ _ => True
  jumpBack {a a'} : C.addr a a' → C.Steps (do cx.emit (.jumpBackward ((← here) - a)))
    (do cx'.emit (.jumpBackward ((← here) - a'))) fun _ _ => True
  addEntry {u s} : C.rel u s → ∀ name, C.rel { u with code := u.code.addEntry name u.code.size }
    { s with code := s.code.addEntry name s.code.size }
  -- Operands.
  constant (p) : C.Attempts (cx.constantOperand p) (cx'.constantOperand p) C.twin
  external (p) : C.Attempts (cx.externalOperand p) (cx'.externalOperand p) C.twin
  value {p} : cx.tree.Mentions p → C.Attempts (cx.valueOperand p) (cx'.valueOperand p) C.twin
  caseLabel (n) : C.Attempts (cx.caseLabel n) (cx'.caseLabel n) C.twin
  scratch : C.Attempts cx.comparisonScratch cx'.comparisonScratch C.twin
  publish (p) {o o'} : C.twin o o' → C.Steps (cx.publish p o) (cx'.publish p o') fun _ _ => True
  lookup {u s} : C.rel u s → ∀ e, Option.Rel C.twin (u.operands.lookup e) (s.operands.lookup e)
  remember {u s o o'} : C.rel u s → C.twin o o' → ∀ e, C.rel (u.remember e o) (s.remember e o')
  good_of_remember {u s e o o'} : C.good (u.remember e o) (s.remember e o') → C.good u s
  watch (e) {o o'} : C.twin o o' → C.Attempts (cx.watch e o) (cx'.watch e o') fun _ _ => True

namespace Coupling

variable {α β γ δ : Type} {cx cx' : Context} {C : Coupling cx cx'} {u s : State} {m : Step α} {m' : Step β}

/-! ## Rules -/

section Meets

variable {P R : α → State → β → State → Prop} {x : Checked (α × State)} {y : Checked (β × State)}

theorem Meets.mono (h : C.Meets P x y) (hpr : ∀ a u b s, P a u b s → R a u b s) : C.Meets R x y := by
  cases x with
  | error f => cases y <;> exact h
  | ok r => cases y with
    | error f => exact h
    | ok r' => exact fun hgood => hpr _ _ _ _ (h hgood)

/-- Both runs have extended their states. -/
theorem Meets.extends (h : C.Meets P (m u) (m' s)) (hm : cx.Keeps m) (hm' : cx'.Keeps m') :
    C.Meets (fun a u1 b s1 => P a u1 b s1 ∧ cx.Extends u u1 ∧ cx'.Extends s s1) (m u) (m' s) := by
  have hu := hm u
  have hs := hm' s
  unfold Step.Ends at hu hs
  cases hx : m u with
  | error f => rw [hx] at h; cases hy : m' s <;> rw [hy] at h <;> exact h
  | ok r => 
    rw [hx] at h hu
    cases hy : m' s with
    | error f => rw [hy] at h; exact h
    | ok r' =>
      rw [hy] at h hs
      exact fun hgood => ⟨h hgood, hu, hs⟩

theorem meets_of_not_strict (hstrict : ¬C.strict)
    (h : ∀ a u b s, x = .ok (a, u) → y = .ok (b, s) → C.good u s → P a u b s) : C.Meets P x y := by
  cases x with
  | error f => cases y with
    | error f' => exact fun h => absurd h hstrict
    | ok r' => exact hstrict
  | ok r => cases y with
    | error f' => exact hstrict
    | ok r' => exact h _ _ _ _ rfl rfl

end Meets

/-- What follows need only be coupled for results that are. -/
theorem Meets.bind [C.Coherent] {P : α → State → β → State → Prop} {R : γ → State → δ → State → Prop}
    {k : α → Step γ} {k' : β → Step δ} (h : C.Meets P (m u) (m' s))
    (hk : ∀ a u b s, P a u b s → C.Meets R (k a u) (k' b s)) (hkeep : ∀ a, cx.Keeps (k a))
    (hkeep' : ∀ b, cx'.Keeps (k' b)) : C.Meets R ((m >>= k) u) ((m' >>= k') s) := by
  show C.Meets R (m u >>= fun r => k r.1 r.2) (m' s >>= fun r => k' r.1 r.2)
  cases hx : m u with
  | error f =>
    rw [hx] at h
    cases hy : m' s with
    | error f' => rw [hy] at h; exact h
    | ok r' => 
      rw [hy] at h
      exact meets_of_not_strict h fun _ _ _ _ hf => nomatch hf
  | ok r =>
    rw [hx] at h
    cases hy : m' s with
    | error f' =>
      rw [hy] at h
      exact meets_of_not_strict h fun _ _ _ _ _ hf => nomatch hf
    | ok r' =>
      rw [hy] at h
      by_cases hstrict : C.strict
      · exact hk _ _ _ _ (h (Coherent.good_of_strict hstrict _ _))
      · refine meets_of_not_strict hstrict fun c u2 d s2 hc hd hgood => ?_
        have hu := Checked.Ends.of_ok (hkeep r.1 r.2) hc
        have hs := Checked.Ends.of_ok (hkeep' r'.1 r'.2) hd
        have hmeets := hk _ _ _ _ (h (Coherent.good_of_extends hu hs hgood))
        rw [show k r.1 r.2 = .ok (c, u2) from hc, show k' r'.1 r'.2 = .ok (d, s2) from hd] at hmeets
        exact hmeets hgood

/-- A walk over a list, with an invariant over the part done. -/
theorem Meets.forM [C.Coherent] {l : List α} {f f' : α → Step PUnit} (I : List α → State → State → Prop)
    (h0 : I [] u s) (hstep : ∀ done x rest, l = done ++ x :: rest → ∀ u s, I done u s →
      C.Meets (fun _ u _ s => I (done ++ [x]) u s) (f x u) (f' x s)) (hkeep : ∀ x, cx.Keeps (f x))
    (hkeep' : ∀ x, cx'.Keeps (f' x)) : C.Meets (fun _ u _ s => I l u s) (l.forM f u) (l.forM f' s) := by
  suffices h : ∀ rest done u s, l = done ++ rest → I done u s →
      C.Meets (fun _ u _ s => I l u s) (rest.forM f u) (rest.forM f' s) from h l [] u s rfl h0
  intro rest
  induction rest with
  | nil =>
    intro done u s hl hi _
    rw [hl, List.append_nil]
    exact hi
  | cons x rest ih =>
    intro done u s hl hi
    refine (hstep done x rest hl u s hi).bind (fun _ u1 _ s1 hi1 => ?_)
      (fun _ => Context.keeps_forM fun y _ => hkeep y) fun _ => Context.keeps_forM fun y _ => hkeep' y
    exact ih (done ++ [x]) u1 s1 (by simp [hl]) hi1

/-! ## Walks and tries -/

variable (C) in
/-- Both steps keep what is there, and under `P` they are coupled. -/
structure Walks (P : Prop) (m : Step α) (m' : Step β) (Q : α → β → Prop) : Prop where
  left : cx.Keeps m
  right : cx'.Keeps m'
  steps : P → C.Steps m m' Q

variable (C) in
/-- Both attempts keep what is there, and under `P` they are coupled. -/
structure Tries (P : Prop) (m : Attempt α) (m' : Attempt β) (Q : α → β → Prop) : Prop where
  left : cx.Tries m
  right : cx'.Tries m'
  attempts : P → C.Attempts m m' Q

section Rules

variable {P R : Prop} {k : α → Step γ} {k' : β → Step δ} {a : Attempt α} {a' : Attempt β} {f : α → Attempt γ}
  {f' : β → Attempt δ} {Q : α → β → Prop} {S : γ → δ → Prop} {l : List α} {x : α} {y : β}

theorem Walks.of_imp (h : C.Walks R m m' Q) (hP : P → R) : C.Walks P m m' Q :=
  ⟨h.left, h.right, fun hp => h.steps (hP hp)⟩

theorem walks_pure (h : P → Q x y) : C.Walks P (pure x) (pure y) Q :=
  ⟨Context.keeps_pure, Context.keeps_pure, fun hp _ _ hrel _ => ⟨hrel, h hp⟩⟩

theorem walks_lift_bind {x : Checked α} {k' : α → Step δ} (h : ∀ y, x = .ok y → C.Walks P (k y) (k' y) S) :
    C.Walks P (liftM x >>= k) (liftM x >>= k') S := by
  cases x with
  | ok y => exact h y rfl
  | error fault => exact ⟨fun _ => trivial, fun _ => trivial, fun _ _ _ _ _ => rfl⟩

theorem Tries.of_imp (h : C.Tries R a a' Q) (hP : P → R) : C.Tries P a a' Q :=
  ⟨h.left, h.right, fun hp => h.attempts (hP hp)⟩

theorem tries_pure (h : P → Q x y) : C.Tries P (pure x) (pure y) Q :=
  ⟨Context.tries_pure, Context.tries_pure, fun hp _ _ hrel _ => ⟨hrel, h hp⟩⟩

theorem tries_throw {e : LowerError} : C.Tries P (throw e : Attempt α) (throw e : Attempt β) Q :=
  ⟨Context.tries_throw, Context.tries_throw, fun _ _ _ hrel _ _ => ⟨hrel, rfl⟩⟩

theorem tries_lift_bind {x : Checked α} {f' : α → Attempt δ} (h : ∀ y, x = .ok y → C.Tries P (f y) (f' y) S) :
    C.Tries P (liftM x >>= f) (liftM x >>= f') S := by
  cases x with
  | ok y => exact h y rfl
  | error fault => exact ⟨fun _ => trivial, fun _ => trivial, fun _ _ _ _ _ => rfl⟩

theorem agrees_of_not_strict (hstrict : ¬C.strict) {r : Except LowerError α} {r' : Except LowerError β}
    (h : (∃ e, r = .error e) ∨ ∃ e, r' = .error e) (u s : State) : C.Agrees Q r u r' s := by
  cases r with
  | error e => cases r' with
    | error e' => exact fun hs => absurd hs hstrict
    | ok y => exact hstrict
  | ok x => cases r' with
    | error e' => exact hstrict
    | ok y => simp at h

variable [C.Coherent]

theorem Walks.bind [Nonempty α] [Nonempty β] (h : C.Walks P m m' Q)
    (hk : ∀ x y, C.Walks (P ∧ Q x y) (k x) (k' y) S) : C.Walks P (m >>= k) (m' >>= k') S := by
  have hleft (x : α) : cx.Keeps (k x) := (hk x (Classical.choice ‹_›)).left
  have hright (y : β) : cx'.Keeps (k' y) := (hk (Classical.choice ‹_›) y).right
  refine ⟨h.left.bind hleft, h.right.bind hright, fun hp _ _ hrel => ?_⟩
  exact (h.steps hp hrel).bind (fun x _ y _ hxy => (hk x y).steps ⟨hp, hxy.2⟩ hxy.1) hleft hright

theorem Walks.seq [Nonempty α] [Nonempty β] (h : C.Walks P m m' Q)
    (hk : ∀ x y, C.Walks P (k x) (k' y) S) : C.Walks P (m >>= k) (m' >>= k') S :=
  h.bind fun x y => (hk x y).of_imp And.left

theorem walks_forM {f f' : α → Step PUnit} (h : ∀ x ∈ l, C.Walks P (f x) (f' x) fun _ _ => True) :
    C.Walks P (l.forM f) (l.forM f') fun _ _ => True := by
  induction l with
  | nil => exact walks_pure fun _ => trivial
  | cons x l ih =>
    exact (h x (by simp)).seq fun _ _ => ih fun y hy => h y (by simp [hy])

theorem Tries.bind [Nonempty α] [Nonempty β] (h : C.Tries P a a' Q)
    (hf : ∀ x y, C.Tries (P ∧ Q x y) (f x) (f' y) S) : C.Tries P (a >>= f) (a' >>= f') S := by
  have hleft (x : α) : cx.Tries (f x) := (hf x (Classical.choice ‹_›)).left
  have hright (y : β) : cx'.Tries (f' y) := (hf (Classical.choice ‹_›) y).right
  refine ⟨h.left.bind hleft, h.right.bind hright, fun hp u s hrel => ?_⟩
  show C.Meets (C.Agrees S) ((a.run >>= ExceptT.bindCont f) u) ((a'.run >>= ExceptT.bindCont f') s)
  refine (h.attempts hp hrel).bind (fun r u r' s hr => ?_) (fun r => ?_) fun r => ?_
  · cases r with
    | error e => cases r' with
      | error e' => exact fun _ => hr
      | ok y => 
        refine meets_of_not_strict hr fun r1 u1 r1' s1 hr1 _ _ => agrees_of_not_strict hr (.inl ⟨e, ?_⟩) _ _
        cases hr1
        rfl
    | ok x => cases r' with
      | error e' =>
        refine meets_of_not_strict hr fun r1 u1 r1' s1 _ hr1 _ => agrees_of_not_strict hr (.inr ⟨e', ?_⟩) _ _
        cases hr1
        rfl
      | ok y => exact (hf x y).attempts ⟨hp, hr.2⟩ hr.1
  · cases r with
    | error e => exact Context.keeps_pure
    | ok x => exact (hleft x).keeps_run
  · cases r with
    | error e => exact Context.keeps_pure
    | ok y => exact (hright y).keeps_run

theorem Tries.seq [Nonempty α] [Nonempty β] (h : C.Tries P a a' Q)
    (hf : ∀ x y, C.Tries P (f x) (f' y) S) : C.Tries P (a >>= f) (a' >>= f') S :=
  h.bind fun x y => (hf x y).of_imp And.left

theorem tries_step (h : C.Walks P m m' Q) : C.Tries P (liftM m) (liftM m') Q := by
  refine ⟨Context.tries_step h.left, Context.tries_step h.right, fun hp u s hrel => ?_⟩
  show C.Meets (C.Agrees Q) ((ExceptT.lift m).run u) ((ExceptT.lift m').run s)
  rw [ExceptT.run_lift, ExceptT.run_lift, map_eq_pure_bind, map_eq_pure_bind]
  refine (h.steps hp hrel).bind (fun x u y s hxy _ => ?_) (fun _ => Context.keeps_pure) fun _ =>
    Context.keeps_pure
  exact hxy

theorem tries_forM {f f' : α → Attempt PUnit} (h : ∀ x ∈ l, C.Tries P (f x) (f' x) fun _ _ => True) :
    C.Tries P (l.forM f) (l.forM f') fun _ _ => True := by
  induction l with
  | nil => exact tries_pure fun _ => trivial
  | cons x l ih =>
    exact (h x (by simp)).seq fun _ _ => ih fun y hy => h y (by simp [hy])

theorem tries_mapM [Nonempty γ] {f' : α → Attempt γ} {S : γ → γ → Prop} (h : ∀ x ∈ l, C.Tries P (f x) (f' x) S) :
    C.Tries P (l.mapM f) (l.mapM f') (List.Forall₂ S) := by
  induction l with
  | nil => exact tries_pure fun _ => .nil
  | cons x l ih =>
    rw [List.mapM_cons, List.mapM_cons]
    refine (h x (by simp)).bind fun _ _ => ?_
    refine ((ih fun y hy => h y (by simp [hy])).of_imp And.left).bind fun _ _ => ?_
    exact tries_pure fun hp => .cons hp.1.2 hp.2

end Rules

/-! ## Parts that couplings have in common -/

section Parts

open Context

variable {P : Prop} {p : Proxy} {o o' : Operand} {stack : CallStack} {S : Operand → Operand → Prop}

/-- The arguments of a call stack are found alike, if only the frames matter. -/
theorem steps_enterFrames (htree : cx'.tree = cx.tree) (hframes : ∀ {u s}, C.rel u s → u.frames = s.frames)
    (hset : ∀ {u s}, C.rel u s → ∀ frames, C.rel { u with frames := frames } { s with frames := frames })
    (stack : CallStack) : C.Steps (cx.enterFrames stack) (cx'.enterFrames stack) fun _ _ => True := by
  intro u s hrel
  unfold enterFrames
  rw [Step.get_bind_apply, Step.get_bind_apply, Step.lift_bind_apply, Step.lift_bind_apply, htree, hframes hrel]
  generalize (stack.drop (commonFrames s.frames stack)).mapM (m := Checked) (ArgumentFrame.capture cx.tree.graph) = r
  cases r with
  | error f => exact fun _ => rfl
  | ok entered => exact fun _ => ⟨hset hrel _, trivial⟩

theorem steps_publish (htree : cx'.tree = cx.tree)
    (hset : ∀ path, C.Steps (modify fun s => { s with pinPaths := s.pinPaths.insert path o })
      (modify fun s => { s with pinPaths := s.pinPaths.insert path o' }) fun _ _ => True) :
    C.Steps (cx.publish p o) (cx'.publish p o') fun _ _ => True := by
  have hkeeps (cx : Context) (path : String) (o : Operand) :
      cx.Keeps (modify fun s => { s with pinPaths := s.pinPaths.insert path o }) :=
    keeps_modify fun s => { Extends.refl s with }
  have hwalks : C.Walks True (cx.publish p o) (cx'.publish p o') fun _ _ => True := by
    unfold publish
    rw [htree]
    exact walks_lift_bind fun path _ => ⟨hkeeps _ _ _, hkeeps _ _ _, fun _ => hset path⟩
  exact hwalks.steps trivial

variable [C.Coherent]

/-- An instruction is emitted and its address kept, if both codes have the same size. -/
theorem steps_reserve {i i' : Instruction} (hsize : ∀ {u s}, C.rel u s → u.code.size = s.code.size)
    (hemit : C.Steps (cx.emit i) (cx'.emit i') fun _ _ => True) : C.Steps (cx.reserve i) (cx'.reserve i') (· = ·) := by
  have hhere : C.Walks True here here (· = ·) :=
    ⟨keeps_here, keeps_here, fun _ _ _ hrel _ => ⟨hrel, hsize hrel⟩⟩
  have hwalks : C.Walks True (cx.emit i) (cx'.emit i') fun _ _ => True :=
    ⟨keeps_emit _, keeps_emit _, fun _ => hemit⟩
  refine Walks.steps (hhere.bind fun a a' => ?_) trivial
  exact (hwalks.of_imp And.left).seq fun _ _ => walks_pure And.right

/-- A call stack is entered when its arguments are found and its locals are set. -/
theorem meets_enter {R : State → State → Prop} (hrel : C.rel u s)
    (htree : cx'.tree = cx.tree) (hframes : ∀ {u s}, C.rel u s → u.frames = s.frames)
    (hset : ∀ {u s}, C.rel u s → ∀ frames, C.rel { u with frames := frames } { s with frames := frames })
    (hlocals : ∀ {u s}, C.rel u s → C.Meets (fun _ u _ s => R u s) (cx.initializeLocals stack u)
      (cx'.initializeLocals stack s))
    (hmove : ∀ {u s}, R u s → C.rel { u with callStack := stack } { s with callStack := stack }) :
    C.Meets (fun _ u _ s => C.rel u s) (cx.enter stack u) (cx'.enter stack s) := by
  have hkeeps (cx : Context) : cx.Keeps (modify fun s => { s with callStack := stack }) :=
    keeps_modify fun s => { Extends.refl s with }
  have hkeeps' (cx : Context) : cx.Keeps (cx.initializeLocals stack) := fun _ =>
    grows_initializeLocals.mono fun _ _ h => h.1
  refine (steps_enterFrames htree hframes hset stack hrel).bind (fun _ u1 _ s1 h1 => ?_)
    (fun _ => (hkeeps' _).bind fun _ => hkeeps _)
    fun _ => (hkeeps' _).bind fun _ => hkeeps _
  exact (hlocals h1.1).bind (fun _ _ _ _ h2 _ => hmove h2) (fun _ => hkeeps _) fun _ => hkeeps _

/-- The locals of a call site are prepared by walks that fail together. -/
theorem walks_prepareLocals (htree : cx'.tree = cx.tree) (hstrict : C.strict)
    (hreport : ∀ {site message}, C.Steps (reportError (.node site) message) (reportError (.node site) message)
      fun _ _ => True) (hlocal : ∀ {function v}, cx.tree.DeclaresAt stack function v →
      C.Attempts (cx.localOperand stack function.name v) (cx'.localOperand stack function.name v) S) :
    C.Walks P (cx.prepareLocals stack) (cx'.prepareLocals stack) fun _ _ => True := by
  have hkeeps (cx : Context) (site : NodeId) (message : String) : cx.Keeps (reportError (.node site) message) :=
    keeps_modify fun _ => extends_error _ _
  unfold prepareLocals
  rw [htree]
  refine walks_lift_bind fun function hfunction => ?_
  cases stack.innermost with
  | none => exact walks_pure fun _ => trivial
  | some site => cases function with
    | none => exact walks_pure fun _ => trivial
    | some function =>
      refine walks_forM fun v hv => ?_
      have hv : cx.tree.DeclaresAt stack function v := ⟨hfunction, hv⟩
      refine ⟨fun _ => (grows_prepareLocal hv).mono fun _ _ h => h.1,
        fun _ => (grows_prepareLocal (htree ▸ hv)).mono fun _ _ h => h.1, fun _ u s hrel => ?_⟩
      refine (hlocal hv hrel).bind (fun r u r' s hr => ?_) (fun r => ?_) fun r => ?_
      · cases r with
        | ok o => cases r' with
          | ok o' => exact fun _ => ⟨hr.1, trivial⟩
          | error error' => exact absurd hstrict hr
        | error error => cases r' with
          | ok o' => exact absurd hstrict hr
          | error error' =>
            obtain ⟨hrel, rfl⟩ := hr hstrict
            exact hreport hrel
      · cases r with
        | ok o => exact keeps_pure
        | error error => exact hkeeps _ _ _
      · cases r with
        | ok o => exact keeps_pure
        | error error => exact hkeeps _ _ _

/-- The locals of a call site are set one by one. -/
theorem meets_emitInitializers {I : State → State → Prop} (htree : cx'.tree = cx.tree) (h0 : I u s)
    (hstep : ∀ {function v u s}, cx.tree.DeclaresAt stack function v → I u s → C.Meets (fun _ u _ s => I u s)
      (cx.emitInitializer stack function.name v u) (cx'.emitInitializer stack function.name v s)) :
    C.Meets (fun _ u _ s => I u s) (cx.emitInitializers stack u) (cx'.emitInitializers stack s) := by
  rw [emitInitializers_eq, emitInitializers_eq, Step.lift_bind_apply, Step.lift_bind_apply, htree]
  cases hfunction : cx.tree.innermostFunction stack with
  | error f => exact fun _ => rfl
  | ok r => cases r with
    | none => exact fun _ => h0
    | some function =>
      refine Meets.forM (fun _ u s => I u s) h0 ?_ (fun _ => keeps_emitInitializer) fun _ => keeps_emitInitializer
      exact fun done v rest hlocals _ _ h1 => hstep ⟨hfunction, by simp [hlocals]⟩ h1

/-- Walks that watch the same pins list their mirrors alike. -/
theorem attempts_watch {e : ExprId} (htree : cx'.tree = cx.tree)
    (hwatched : cx'.options.isWatched = cx.options.isWatched)
    (hmirror : ∀ p, C.Attempts (cx.watchOperand p) (cx'.watchOperand p) S)
    (hadd : ∀ {mirror mirror'}, S mirror mirror' →
      C.Steps (modify fun s => { s with mirrors := addMirror s.mirrors o mirror })
        (modify fun s => { s with mirrors := addMirror s.mirrors o' mirror' }) fun _ _ => True) :
    C.Attempts (cx.watch e o) (cx'.watch e o') fun _ _ => True := by
  have hkeeps (cx : Context) (o mirror : Operand) :
      cx.Keeps (modify fun s => { s with mirrors := addMirror s.mirrors o mirror }) :=
    keeps_modify fun s => { Extends.refl s with }
  suffices h : C.Tries True (cx.watch e o) (cx'.watch e o') fun _ _ => True from h.attempts trivial
  unfold watch
  rw [htree, hwatched]
  refine tries_lift_bind fun x _ => ?_
  cases x.proxy with
  | none => exact tries_pure fun _ => trivial
  | some p =>
    refine tries_lift_bind fun path _ => ?_
    split
    · have htries : C.Tries True (cx.watchOperand p) (cx'.watchOperand p) S :=
        ⟨Finds.tries finds_watchOperand, Finds.tries finds_watchOperand,
          fun _ => hmirror p⟩
      exact htries.bind fun _ _ => tries_step ⟨hkeeps _ _ _, hkeeps _ _ _, fun h => hadd h.2⟩
    · exact tries_pure fun _ => trivial

end Parts

end Coupling

end Lowering
end NodeGraph
