import NodeGraph.Compile
import NodeGraph.Proofs.Lowering.Sites
import NodeGraph.Proofs.Tree.Valid

/-!
# Accounts of the walk

An account says what every part of the walk does to the state, at a price in instructions: a relation
between the state before and the state after it in which prices add up. Its laws speak of the few things
the walk does to a state, such as emitting an instruction or asking for an operand. From these follows what
lowering an expression does at the price its kind allows (`charge`), and so what a pass over all roots does
(`moves_of_lowerRoots`). Walks that fail are accounted for as well, and nothing is assumed of the tree.

Which operands are asked for is not left open (`Asks`): in emission these are the operands of setup, and
those of the pins `Count` and `Index` of a counted loop.
-/
namespace NodeGraph

/-! ## Prices -/

/-- The prices of instructions. All others are free. -/
structure Rates where
  call : Nat := 0
  block : Nat := 0
  exit : Nat := 0
  comparison : Nat := 0

def Instruction.price (r : Rates) : Instruction → Nat
  | execute .. => r.call
  | beginBlock .. => r.block
  | exit => r.exit
  | equals .. => r.comparison
  | _ => 0

/-- What an expression may spend on instructions of its own. -/
def Tree.charge (t : Tree) (r : Rates) (e : ExprId) : Nat :=
  match t.kind e with
  | .ok .call =>
    match t.nodeKindOf e with
    | .ok (some (.unit _)) => r.call
    | .ok (some (.forLoop _)) => r.call + r.block
    | _ => 0
  | .ok .array =>
    match t.nodeKindOf e with
    | .ok (some (.array .iterate)) => r.block
    | _ => 0
  | .ok .select =>
    match t.subPinValues e PinName.values with
    | .ok cases => (cases.length - 1) * r.comparison
    | .error _ => 0
  | .ok .entry | .ok .exit => r.exit
  | _ => 0

namespace Lowering

/-! ## What is asked for -/

variable {function : String} {cx : Context} {error : LowerError} {s : State}

namespace Context

variable (cx : Context)

/-- The pins that stand for the parameters of a function. -/
def parameterPins (function : String) : List String :=
  match cx.env.catalog.find? function with
  | none => []
  | some (_, signature) => signature.parameters.map (·.name)

/-- The pins of a counted loop that only emission asks for. -/
def counterPins : List String :=
  match cx.pass with
  | .setup => []
  | .emit => [PinName.count, PinName.index]

/-- The pins of an expression that its lowering asks for the operands of. -/
def askedPins (e : ExprId) : Checked (List String) := do
  match ← cx.tree.kind e with
  | .call =>
    match ← cx.tree.nodeKindOf e with
    | some (.unit function) => return cx.parameterPins function
    | some (.forLoop function) => return cx.counterPins ++ PinName.proceed :: cx.parameterPins function
    | _ => return []
  | .array =>
    match ← cx.tree.nodeKindOf e with
    | some (.array op) => return op.pinNames
    | _ => return []
  | .branch => return [PinName.condition]
  | .ifElse => return [PinName.whenTrue, PinName.whenFalse, PinName.condition, PinName.result]
  | .select =>
    match ← cx.tree.subPinValues e PinName.values with
    | [] => return []
    | _ => return [PinName.index, PinName.result]
  | _ => return []

section AskedPins

variable {cx} {e : ExprId}

theorem askedPins_unit (hkind : cx.tree.kind e = .ok .call)
    (hnode : cx.tree.nodeKindOf e = .ok (some (.unit function))) :
    cx.askedPins e = .ok (cx.parameterPins function) := by
  rw [askedPins, hkind, Checked.ok_bind, hnode]
  rfl

theorem askedPins_forLoop (hkind : cx.tree.kind e = .ok .call)
    (hnode : cx.tree.nodeKindOf e = .ok (some (.forLoop function))) :
    cx.askedPins e = .ok (cx.counterPins ++ PinName.proceed :: cx.parameterPins function) := by
  rw [askedPins, hkind, Checked.ok_bind, hnode]
  rfl

theorem askedPins_array {op : ArrayOp} (hkind : cx.tree.kind e = .ok .array)
    (hnode : cx.tree.nodeKindOf e = .ok (some (.array op))) : cx.askedPins e = .ok op.pinNames := by
  rw [askedPins, hkind, Checked.ok_bind, hnode]
  rfl

theorem askedPins_select {first : ExprId} {others : List ExprId} (hkind : cx.tree.kind e = .ok .select)
    (hcases : cx.tree.subPinValues e PinName.values = .ok (first :: others)) :
    cx.askedPins e = .ok [PinName.index, PinName.result] := by
  rw [askedPins, hkind, Checked.ok_bind, hcases]
  rfl

end AskedPins

/-- Whether an expression holds a value of its own or that of a child. -/
def holdsValue (c : ExprId) : Checked Bool := do
  let kind ← cx.tree.kind c
  return kind.isValue || kind = .cachedValue

/-- A transfer moves a value between two pins, and the source is no execution pin. -/
structure Transfers (e : ExprId) (x : Expression) (source target : Proxy) : Prop where
  expr : cx.tree.expr? e = some x
  kind : x.kind.isTransfer = true
  reads : x.source = some source
  writes : x.proxy = some target
  value : isExecutePin cx.tree.graph source = .ok false

/-- The lowering of an expression asks for the operand of another, or of its own. -/
inductive Asks (e : ExprId) : ExprId → Prop
  | value {kind pin} : cx.pass = .setup → cx.tree.kind e = .ok kind → kind.isValue = true →
      cx.tree.pinOf e = .ok pin → pin.any Pin.isExecute = false → Asks e e
  | cached : cx.tree.kind e = .ok .cachedValue → Asks e e
  | pin {pins pin c} : cx.askedPins e = .ok pins → pin ∈ pins → cx.tree.varForPin e pin = .ok (some c) →
      Asks e c
  | case {cases c} : cx.tree.kind e = .ok .select → cx.tree.subPinValues e PinName.values = .ok cases →
      c ∈ cases → Asks e c
  | source {x source target c} : cx.Transfers e x source target →
      x.children.findM? (m := Checked) cx.holdsValue = .ok (some c) → Asks e c

/-- The lowering of a transfer asks for the operand of a pin. -/
inductive AsksPin (e : ExprId) : Proxy → Prop
  | target {x source target} : cx.Transfers e x source target → AsksPin e target
  | source {x source target} : cx.Transfers e x source target →
      x.children.findM? (m := Checked) cx.holdsValue = .ok none → AsksPin e source

/-- The lowering of an expression itself ends in an error, whatever operands it finds. -/
inductive Throws (e : ExprId) : LowerError → Prop
  | missingPin {x pins pin} : cx.tree.expr? e = some x → cx.askedPins e = .ok pins → pin ∈ pins →
      cx.tree.varForPin e pin = .ok none → Throws e (.missingPin x.name pin)
  | unknownFunction {node function} : cx.tree.kind e = .ok .call → cx.tree.nodeKindOf e = .ok (some node) →
      node = .unit function ∨ node = .forLoop function → cx.env.catalog.find? function = none →
      Throws e (.unknownFunction function)
  | notCalled {x node} : cx.tree.expr? e = some x → x.kind = .call → cx.tree.nodeKindOf e = .ok node →
      (∀ function, node ≠ some (.unit function) ∧ node ≠ some (.forLoop function)) → Throws e (.notCallable x.name)
  | noArray {x node} : cx.tree.expr? e = some x → x.kind = .array → cx.tree.nodeKindOf e = .ok node →
      (∀ op, node ≠ some (.array op)) → Throws e (.notCallable x.name)
  | missingProxy {x} : cx.tree.expr? e = some x → x.kind.isTransfer = true → x.source = none ∨ x.proxy = none →
      Throws e .missingProxy

/-- A selection needs a label. -/
def AsksLabel (e : ExprId) (n : Nat) : Prop :=
  ∃ cases, cx.tree.kind e = .ok .select ∧ cx.tree.subPinValues e PinName.values = .ok cases ∧
    0 < n ∧ n < cases.length

end Context

/-! ## Emission -/

namespace Context

variable {cx : Context}

theorem emitUnder_apply (hpass : cx.pass = .emit) (stack : CallStack) (i : Instruction) (s : State) :
    cx.emitUnder stack i s = blocksAfter s.openBlocks i >>= fun openBlocks => .ok ((), { s with
      code := s.code.push i (if cx.options.recordCallStacks then some stack else none)
      openBlocks := openBlocks }) := by
  unfold emitUnder
  rw [hpass]
  dsimp only
  rw [Step.get_bind_apply, Step.lift_bind_apply]
  rfl

theorem emitUnder_setup (hpass : cx.pass = .setup) (stack : CallStack) (i : Instruction) (s : State) :
    cx.emitUnder stack i s = .error .emittedDuringSetup := by
  unfold emitUnder
  rw [hpass]
  rfl

variable (cx) in
/-- Emits a copy of its default into a local, if both have a register. -/
def emitInitializer (callSite : CallStack) (function : String) (v : LocalVariable) : Step Unit := do
  let key ← localKey cx.tree.graph callSite v.name
  let keyed := (← get).storage.keyed
  match keyed.lookup (localDefaultKey function v.name), keyed.lookup key with
  | some source, some target => cx.emitUnder callSite (.copy source target)
  | _, _ => return ()

variable (cx) in
theorem emitInitializers_eq (callSite : CallStack) : cx.emitInitializers callSite = (do
    match ← cx.tree.innermostFunction callSite with
    | none => return ()
    | some function => function.locals.forM (cx.emitInitializer callSite function.name)) := rfl

end Context

/-! ## Accounts -/

/-- The state in which a pass starts. -/
def State.restarted (s : State) : State :=
  { s with visited := [], spans := [], frames := [], callStack := [] }

/-- Keeps the operand of an expression. -/
def State.remember (s : State) (e : ExprId) (o : Operand) : State := { s with operands := (e, o) :: s.operands }

/-- Only the record of where the walk is has changed. -/
def State.Aside (s s' : State) : Prop :=
  s' = { s with
    frames := s'.frames
    callStack := s'.callStack
    prepared := s'.prepared
    initialized := s'.initialized
    initializers := s'.initializers }

/-- What the parts of a walk do. -/
structure Account where
  rates : Rates := {}
  /-- What holds of every state on the way. -/
  guard : State → Prop := fun _ => True
  /-- What a part of the lowering of an expression does, at a price. -/
  moves : ExprId → Nat → State → State → Prop
  /-- What lowering an expression does, the first time and ever after. -/
  lowers : ExprId → State → State → Prop
  /-- How an expression is left when it was lowered, from the state it was lowered in. -/
  ended : ExprId → State → State → Prop := fun _ _ _ => True
  /-- The expressions that the walk may come to. -/
  known : ExprId → Prop := fun _ => True
  /-- The expressions that may be lowered. -/
  active : ExprId → Prop := fun _ => True
  /-- The errors that the lowering of an expression may end in. -/
  raises : ExprId → LowerError → Prop := fun _ _ => True
  /-- The errors that may be reported, and about what. -/
  reports : Subject → LowerError → Prop := fun _ _ => True

variable {A : Account}

namespace Account

variable {α β : Type} (A : Account)

/-- A step of the lowering of an expression is accounted for at a price. -/
def Pays (e : ExprId) (n : Nat) (m : Step α) : Prop :=
  ∀ s, A.guard s → Step.Ends (fun _ => True) s m fun _ s' => A.moves e n s s'

/-- An attempt from a state in the lowering of an expression is accounted for at a price, whether it fails or
not. -/
abbrev TriesFrom (e : ExprId) (n : Nat) (s : State) (m : Attempt α) : Prop :=
  Attempt.Ends (fun _ => True) s m (fun _ s' => A.moves e n s s') fun error s' => A.moves e n s s' ∧ A.raises e error

/-- An attempt is accounted for, whatever state it starts from. -/
def Tries (e : ExprId) (n : Nat) (m : Attempt α) : Prop := ∀ s, A.guard s → A.TriesFrom e n s m

/-- A way to lower known expressions is accounted for. -/
def Walks (lower : ExprId → Step Unit) : Prop :=
  ∀ c, A.known c → ∀ s, A.guard s → Step.Ends (fun _ => True) s (lower c) fun _ s' => A.lowers c s s'

/-- Prices add up. -/
structure Graded : Prop where
  refl (e s) : A.moves e 0 s s
  trans {e m n s s' s''} : A.moves e m s s' → A.moves e n s' s'' → A.moves e (m + n) s s''
  raise {e m n s s'} : A.moves e m s s' → m ≤ n → A.moves e n s s' := by exact fun h _ => h
  keeps {e n s s'} : A.guard s → A.moves e n s s' → A.guard s' := by exact fun _ _ => trivial

/-- The laws for what is done between the operands of an expression: lowering others, warning and emitting. -/
structure Emits (cx : Context) : Prop extends A.Graded where
  known_child {e x c} : A.active e → cx.tree.expr? e = some x → x.kind ≠ .exit → c ∈ x.children →
    A.known c := by exact fun _ _ _ _ => trivial
  known_below {v x c} : A.known v → cx.tree.expr? v = some x → x.kind.isValue = true → c ∈ x.children →
    A.known c := by exact fun _ _ _ _ => trivial
  of_lowers {e c s s'} : A.lowers c s s' → A.moves e 0 s s'
  warning (e s subject message) :
    A.moves e 0 s { s with report := s.report.warning cx.options subject message }
  push {e s i n} (stack) : cx.pass = .emit → blocksAfter s.openBlocks i = .ok n →
    A.moves e (i.price A.rates) s { s with code := s.code.push i stack, openBlocks := n }
  land {e s a code} : cx.pass = .emit → s.code.setOffset a (s.code.size - a) = .ok code →
    A.moves e 0 s { s with code := code }

/-- The laws for the way of the walk, its record and its report, and for emission. -/
structure Ruled (cx : Context) : Prop extends A.Emits cx where
  -- Coming to an expression.
  visit {e s} : A.known e → A.guard s → e ∉ s.failed → e ∉ s.visited →
    A.active e ∧ A.guard { s with visited := e :: s.visited } := by exact fun _ _ _ _ => ⟨trivial, trivial⟩
  ends {e s lower} : A.active e → A.guard s → A.Walks lower →
    Step.Ends (fun _ => True) s (cx.lowerUnder lower e) fun _ s' => A.ended e s s' := by
      exact fun _ _ _ => Step.ends_true
  once {e s s'} : A.known e → A.guard s → e ∉ s.failed → e ∉ s.visited →
    A.moves e (cx.tree.charge A.rates e) { s with visited := e :: s.visited } s' →
    A.ended e { s with visited := e :: s.visited } s' →
    A.lowers e s { s' with spans := ⟨e, s.code.size, s'.code.size⟩ :: s'.spans }
  skip {e s} : A.known e → A.guard s → e ∈ s.failed ∨ e ∈ s.visited → A.lowers e s s
  -- The record and the report.
  aside {e s s'} : s.Aside s' → A.moves e 0 s s'
  raised {e lower} : A.active e →
    Attempt.Raises (fun error => error.isReported = true → A.reports (error.subject e) error)
      (cx.lowerExpr lower e) := by exact fun _ _ _ _ _ _ => trivial
  raisedForLocal (callSite function v site) :
    Attempt.Raises (A.reports (.node site)) (cx.localOperand callSite function v) := by
      exact fun _ _ _ _ _ _ _ _ => trivial
  error (e s subject error) : A.reports subject error →
    A.moves e 0 s { s with report := s.report.error subject error.message }
  failed (e s) : A.moves e 0 s { s with failed := e :: s.failed }

/-- The laws for finding operands and keeping them, where it does not matter which. -/
structure Locates : Prop where
  storage {e s storage} : s.storage.Extends storage → s.storage.Files storage →
    A.moves e 0 s { s with storage := storage }
  remember {e s s' c o} : s.operands.lookup c = none → A.moves e 0 s s' → A.moves e 0 s (s'.remember c o)
  publish (e s path o) : A.moves e 0 s { s with pinPaths := s.pinPaths.insert path o }
  raises (e error) : A.raises e error := by exact fun _ _ => trivial

/-- The same, where it does not matter either which operands are mirrored. -/
structure Stores : Prop extends A.Locates where
  mirror (e s mirrors) : A.moves e 0 s { s with mirrors := mirrors }

/-- The laws for what the lowering of an expression does after it was entered. -/
structure Answers (cx : Context) : Prop extends A.Emits cx where
  entry {e lower} : A.active e → cx.tree.kind e = .ok .entry → A.Walks lower →
    A.Pays e A.rates.exit (cx.lowerEntry lower e)
  operand {e c} : A.active e → cx.Asks e c → A.Tries e 0 (cx.operandOf c)
  value {e p} : A.active e → cx.AsksPin e p → A.Tries e 0 (cx.valueOperand p)
  label {e n} : A.active e → cx.AsksLabel e n → A.Tries e 0 (cx.caseLabel n)
  scratch {e n} : A.active e → cx.AsksLabel e n → A.Tries e 0 cx.comparisonScratch
  watch {e pin} : A.active e → cx.pass = .setup → cx.tree.kind e = .ok .var → cx.tree.pinOf e = .ok pin →
    pin.any Pin.isExecute = false → A.Tries e 0 (do cx.watch e (← cx.operandOf e))
  throws {e error} : A.active e → cx.Throws e error → A.raises e error := by exact fun _ _ => trivial

/-- The laws of an account. -/
structure Lawful (cx : Context) : Prop extends A.Ruled cx, A.Answers cx where
  locals (e site) : cx.pass = .setup → A.Pays e 0 (cx.prepareLocals site)

end Account

/-! ## Rules -/

namespace Account

variable {α β : Type} {A : Account} {e : ExprId} {n : Nat} {a : Step α} {k : α → Step β} {f : α → Attempt β}
  {r : Checked α}

theorem pays_lift_bind (hk : ∀ y, r = .ok y → A.Pays e n (k y)) :
    A.Pays e n (liftM r >>= k) := fun s hs => Step.ends_lift_bind fun y hy => hk y hy s hs

theorem pays_modify {g : State → State} (hg : ∀ s, A.moves e n s (g s)) : A.Pays e n (modify g) :=
  fun s _ => hg s

theorem tries_step (ha : A.Pays e n a) : A.Tries e n (liftM a) := fun s hs => Attempt.ends_step.2 (ha s hs)

theorem tries_lift_bind (hf : ∀ y, r = .ok y → A.Tries e n (f y)) :
    A.Tries e n (liftM r >>= f) := fun s hs => Attempt.ends_lift_bind fun y hy => hf y hy s hs

end Account

namespace Account.Graded

variable {α β : Type} {A : Account} (h : A.Graded) {e : ExprId} {m n : Nat}

include h

section Rules

variable {a : Step α} {k : α → Step β} {x : Attempt α} {f : α → Attempt β} {l : List α} {r : α}

theorem pays_pure : A.Pays e n (pure r) := fun s _ => h.raise (h.refl e s) (Nat.zero_le n)

theorem pays_get : A.Pays e 0 get := fun s _ => h.refl e s

theorem pays_bind (ha : A.Pays e m a) (hk : ∀ r, A.Pays e n (k r)) : A.Pays e (m + n) (a >>= k) := by
  intro s hs
  refine Step.ends_bind.2 ((ha s hs).mono fun r s1 h1 => ?_)
  exact (hk r s1 (h.keeps hs h1)).mono fun _ _ h2 => h.trans h1 h2

/-- What comes first may be free. -/
theorem pays_after (ha : A.Pays e 0 a) (hk : ∀ r, A.Pays e n (k r)) : A.Pays e n (a >>= k) :=
  Nat.zero_add n ▸ h.pays_bind ha hk

/-- What follows may be free. -/
theorem pays_before (ha : A.Pays e n a) (hk : ∀ r, A.Pays e 0 (k r)) : A.Pays e n (a >>= k) :=
  h.pays_bind ha hk

theorem pays_raise (ha : A.Pays e m a) (hmn : m ≤ n) : A.Pays e n a := fun s hs =>
  (ha s hs).mono fun _ _ h1 => h.raise h1 hmn

theorem pays_forM {k : α → Step PUnit} (hk : ∀ r ∈ l, A.Pays e 0 (k r)) : A.Pays e 0 (l.forM k) := by
  intro s hs
  refine Step.ends_forM (fun _ s' => A.moves e 0 s s') (h.refl e s) ?_
  rintro done r rest rfl s1 h1
  exact (hk r (by simp) s1 (h.keeps hs h1)).mono fun _ _ h2 => h.trans h1 h2

theorem tries_pure : A.Tries e n (pure r) := fun s _ => h.raise (h.refl e s) (Nat.zero_le n)

theorem tries_throw (herror : A.raises e error := by exact trivial) :
    A.Tries e n (throw error : Attempt α) := fun s _ => ⟨h.raise (h.refl e s) (Nat.zero_le n), herror⟩

theorem tries_raise (hx : A.Tries e m x) (hmn : m ≤ n) : A.Tries e n x := fun s hs =>
  (hx s hs).mono (fun _ _ h1 => h.raise h1 hmn) fun _ _ h1 => ⟨h.raise h1.1 hmn, h1.2⟩

theorem triesFrom_bind (hs : A.guard s) (hx : A.TriesFrom e m s x) (hf : ∀ r, A.Tries e n (f r)) :
    A.TriesFrom e (m + n) s (x >>= f) := by
  refine Attempt.ends_bind.2 (hx.mono (fun r s1 h1 => ?_) fun _ _ h1 =>
    ⟨h.raise h1.1 (Nat.le_add_right m n), h1.2⟩)
  exact (hf r s1 (h.keeps hs h1)).mono (fun _ _ h2 => h.trans h1 h2) fun _ _ h2 => ⟨h.trans h1 h2.1, h2.2⟩

theorem tries_bind (hx : A.Tries e m x) (hf : ∀ r, A.Tries e n (f r)) : A.Tries e (m + n) (x >>= f) :=
  fun s hs => h.triesFrom_bind hs (hx s hs) hf

theorem tries_after (hx : A.Tries e 0 x) (hf : ∀ r, A.Tries e n (f r)) : A.Tries e n (x >>= f) :=
  Nat.zero_add n ▸ h.tries_bind hx hf

theorem tries_before (hx : A.Tries e n x) (hf : ∀ r, A.Tries e 0 (f r)) : A.Tries e n (x >>= f) :=
  h.tries_bind hx hf

theorem tries_forM {f : α → Attempt PUnit} (hf : ∀ r ∈ l, A.Tries e 0 (f r)) : A.Tries e 0 (l.forM f) := by
  intro s hs
  refine Attempt.ends_forM (fun _ s' => A.moves e 0 s s') (h.refl e s) ?_
  rintro done r rest rfl s1 h1
  exact (hf r (by simp) s1 (h.keeps hs h1)).mono (fun _ _ h2 => h.trans h1 h2) fun _ _ h2 => ⟨h.trans h1 h2.1, h2.2⟩

theorem tries_mapM_bind {γ : Type} {k : List β → Attempt γ} (hf : ∀ r ∈ l, A.Tries e 0 (f r))
    (hk : ∀ rs, rs.length = l.length → A.Tries e n (k rs)) : A.Tries e n (l.mapM f >>= k) := by
  intro s hs
  have hsum {s1 s2 : State} (h1 : A.moves e 0 s s1) (h2 : A.moves e n s1 s2) : A.moves e n s s2 :=
    Nat.zero_add n ▸ h.trans h1 h2
  refine Attempt.ends_bind.2 ((Attempt.ends_mapM (fun _ s' => A.moves e 0 s s') (h.refl e s) ?_).mono
    (fun rs s1 h1 => ?_) fun _ _ h1 => h1)
  · intro r hr _ s1 h1
    exact (hf r hr s1 (h.keeps hs h1)).mono (fun _ _ h2 => h.trans h1 h2) fun _ _ h2 =>
      ⟨h.raise (h.trans h1 h2.1) (Nat.zero_le n), h2.2⟩
  · exact (hk rs h1.1 s1 (h.keeps hs h1.2)).mono (fun _ _ h2 => hsum h1.2 h2) fun _ _ h2 => ⟨hsum h1.2 h2.1, h2.2⟩

theorem tries_mapM (hf : ∀ r ∈ l, A.Tries e 0 (f r)) : A.Tries e 0 (l.mapM f) := by
  have hbind : A.Tries e 0 (l.mapM f >>= pure) := h.tries_mapM_bind hf fun _ _ => h.tries_pure
  rwa [bind_pure] at hbind

end Rules

end Account.Graded

namespace Account.Emits

variable {α β : Type} {A : Account} {cx : Context} (h : A.Emits cx) {e : ExprId}

include h

/-! ## Emission and reports -/

theorem pays_emitUnder (stack : CallStack) (i : Instruction) :
    A.Pays e (i.price A.rates) (cx.emitUnder stack i) := by
  intro s _
  unfold Step.Ends
  cases hpass : cx.pass with
  | setup =>
    rw [Context.emitUnder_setup hpass]
    trivial
  | emit =>
    rw [Context.emitUnder_apply hpass]
    cases hblocks : blocksAfter s.openBlocks i with
    | error f => trivial
    | ok n => exact h.push _ hpass hblocks

theorem pays_emit (i : Instruction) : A.Pays e (i.price A.rates) (cx.emit i) :=
  h.pays_after h.pays_get fun s => h.pays_emitUnder s.callStack i

theorem pays_here : A.Pays e 0 here := h.pays_after h.pays_get fun _ => h.pays_pure

theorem pays_reserve (i : Instruction) : A.Pays e (i.price A.rates) (cx.reserve i) :=
  h.pays_after h.pays_here fun _ => h.pays_before (h.pays_emit i) fun _ => h.pays_pure

theorem pays_land (hpass : cx.pass = .emit) (a : Nat) : A.Pays e 0 (Lowering.land a) := by
  intro s _
  exact Step.ends_get_bind.2 (Step.ends_lift_bind fun code hcode => h.land hpass hcode)

theorem pays_reportWarning (subject : Subject) (message : String) :
    A.Pays e 0 (cx.reportWarning subject message) := pays_modify fun s => h.warning e s subject message

theorem pays_checkWatches : A.Pays e 0 cx.checkWatches := by
  unfold Context.checkWatches
  refine h.pays_forM fun path _ => ?_
  generalize cx.tree.graph.findByPath (barePath path) = found
  apply pays_lift_bind
  intro r _
  cases r with
  | some _ => exact h.pays_pure
  | none => exact h.pays_reportWarning _ _

theorem pays_copyValue (source target : Operand) : A.Pays e 0 (cx.copyValue source target) := by
  unfold Context.copyValue
  split
  · exact h.pays_pure
  · exact h.pays_emit _

theorem pays_alternative (hpass : cx.pass = .emit) {condition : Operand} {whenTrue whenFalse : Step Unit}
    (ht : A.Pays e 0 whenTrue) (hf : A.Pays e 0 whenFalse) :
    A.Pays e 0 (cx.alternative condition whenTrue whenFalse) := by
  refine h.pays_after (h.pays_reserve _) fun toFalse => h.pays_after ht fun _ => ?_
  refine h.pays_after (h.pays_reserve _) fun toEnd => h.pays_after (h.pays_land hpass _) fun _ => ?_
  exact h.pays_after hf fun _ => h.pays_land hpass _

theorem pays_emitCases (hpass : cx.pass = .emit) {arms : List (Option Nat × Step Unit)}
    (harms : ∀ arm ∈ arms, A.Pays e 0 arm.2) : A.Pays e 0 (cx.emitCases arms) := by
  have hland (jump : Option Nat) : A.Pays e 0 (jump.forM Lowering.land) := by
    cases jump
    · exact h.pays_pure
    · exact h.pays_land hpass _
  fun_induction Context.emitCases cx arms with
  | case1 => exact h.pays_pure
  | case2 jump body =>
    have hbody : A.Pays e 0 body := harms (jump, body) (by simp)
    exact h.pays_after (hland jump) fun _ => hbody
  | case3 jump body rest _ ih =>
    have hbody : A.Pays e 0 body := harms (jump, body) (by simp)
    have hrest := ih fun arm harm => harms arm (by simp [harm])
    refine h.pays_after (hland jump) fun _ => h.pays_after hbody fun _ => ?_
    exact h.pays_after (h.pays_reserve _) fun toEnd => h.pays_after hrest fun _ => h.pays_land hpass _

/-- Every label is compared once. -/
theorem pays_compareIndex {index scratch : Operand} (labels : List Operand) :
    A.Pays e (labels.length * A.rates.comparison) (cx.compareIndex index scratch labels) := by
  unfold Context.compareIndex
  induction labels with
  | nil =>
    rw [List.length_nil, Nat.zero_mul]
    exact h.pays_pure
  | cons label labels ih =>
    rw [List.mapM_cons, List.length_cons, Nat.succ_mul, Nat.add_comm]
    have hcase : A.Pays e A.rates.comparison
        (do cx.emit (.equals index label scratch); cx.reserve (.jumpIf scratch 0 true)) :=
      h.pays_before (h.pays_emit _) fun _ => h.pays_reserve _
    exact h.pays_bind hcase fun _ => h.pays_before ih fun _ => h.pays_pure

theorem pays_emitInitializers (site : CallStack) : A.Pays e 0 (cx.emitInitializers site) := by
  rw [Context.emitInitializers_eq]
  refine pays_lift_bind fun r _ => ?_
  cases r with
  | none => exact h.pays_pure
  | some function =>
    refine h.pays_forM fun v _ => pays_lift_bind fun key _ => h.pays_after h.pays_get fun s => ?_
    dsimp only
    split
    · exact h.pays_emitUnder _ _
    · exact h.pays_pure

/-! ## Children and blocks -/

section Parts

variable {lower : ExprId → Step Unit} {kind : ExprKind} (he : A.active e) (hlower : A.Walks lower)

include he hlower

theorem pays_child (hkind : cx.tree.kind e = .ok kind) (hexit : kind ≠ .exit) {c : ExprId}
    (hc : cx.tree.IsChild e c) : A.Pays e 0 (lower c) := by
  intro s hs
  obtain ⟨x, hx, hc⟩ := hc
  rw [Tree.kind_eq hx] at hkind
  cases hkind
  exact (hlower c (h.known_child he hx hexit hc) s hs).mono fun _ _ h1 => h.of_lowers h1

theorem pays_lowerChildren (hkind : cx.tree.kind e = .ok kind) (hexit : kind ≠ .exit) :
    A.Pays e 0 (cx.lowerChildren lower e) := by
  refine pays_lift_bind fun children hchildren => h.pays_forM fun c hc => ?_
  exact h.pays_child he hlower hkind hexit (Tree.isChild_of_mem hchildren hc)

theorem pays_lowerBlock (hkind : cx.tree.kind e = .ok kind) (hexit : kind ≠ .exit) (pin : String) :
    A.Pays e 0 (cx.lowerBlock lower e pin) := by
  refine pays_lift_bind fun r hr => ?_
  cases r with
  | none => exact h.pays_pure
  | some block =>
    obtain ⟨v, y, ⟨x, hx, hv⟩, hy, hvalue, hblock⟩ := Tree.isChild_of_blockForPin hr
    rw [Tree.kind_eq hx] at hkind
    cases hkind
    have hknown := h.known_below (h.known_child he hx hexit hv) hy hvalue hblock
    exact fun s hs => (hlower block hknown s hs).mono fun _ _ h1 => h.of_lowers h1

theorem pays_emitLoop (hpass : cx.pass = .emit) (hkind : cx.tree.kind e = .ok kind) (hexit : kind ≠ .exit)
    (count index proceed : Operand) (step : Instruction) :
    A.Pays e (step.price A.rates + A.rates.block) (cx.emitLoop lower e count index proceed step) := by
  have hblock := h.pays_lowerBlock he hlower hkind hexit
  refine h.pays_after (h.pays_emit _) fun _ => h.pays_after h.pays_here fun top => ?_
  refine h.pays_bind (h.pays_emit step) fun _ => h.pays_after (h.pays_reserve _) fun toDone => ?_
  refine h.pays_before (h.pays_emit (.beginBlock count index)) fun _ => h.pays_after (hblock _) fun _ => ?_
  refine h.pays_after (h.pays_emit _) fun _ => h.pays_after (h.pays_emit _) fun _ => ?_
  refine h.pays_after h.pays_here fun _ => h.pays_after (h.pays_emit _) fun _ => ?_
  exact h.pays_after (h.pays_land hpass _) fun _ => hblock _

/-- A way to account for entries where it does not matter which there are. -/
theorem pays_lowerEntry (hadd : ∀ s name, A.moves e 0 s { s with code := s.code.addEntry name s.code.size })
    (hkind : cx.tree.kind e = .ok .entry) : A.Pays e A.rates.exit (cx.lowerEntry lower e) := by
  have hchildren := h.pays_lowerChildren he hlower hkind (by decide)
  refine pays_lift_bind fun x _ => ?_
  cases hpass : cx.pass with
  | setup => exact h.pays_raise hchildren (Nat.zero_le _)
  | emit =>
    refine pays_lift_bind fun node _ => h.pays_after (pays_modify fun s => hadd s _) fun _ => ?_
    refine h.pays_after hchildren fun _ => pays_lift_bind fun r _ => ?_
    cases r with
    | some _ => exact h.pays_pure
    | none => exact h.pays_emit _

end Parts
end Account.Emits

/-! ## Finding operands -/

namespace Account.Locates

variable {α : Type} {A : Account} {cx : Context} (hfinds : A.Locates) (h : A.Graded) {e c : ExprId} {p : Proxy}
  {o : Operand}

include hfinds

theorem tries_finds {a : Attempt α} {P : Storage → α → Prop} (ha : cx.Finds a P) : A.Tries e 0 a := by
  intro s _
  have hstored {s' : State} (h1 : cx.Enlarges s.storage s'.storage ∧ s' = { s with storage := s'.storage }) :
      A.moves e 0 s s' := by
    rw [h1.2]
    exact hfinds.storage h1.1.keeps h1.1.files
  exact (ha.ends s).mono (fun _ _ h1 => hstored h1.1) fun _ _ h1 => ⟨hstored h1, hfinds.raises e _⟩

theorem pays_publish : A.Pays e 0 (cx.publish p o) :=
  pays_lift_bind fun path _ => pays_modify fun s => hfinds.publish e s path o

include h

theorem tries_memoized {find : Attempt Operand} (hfind : A.Tries e 0 find) : A.Tries e 0 (memoized c find) := by
  intro s hs
  refine Attempt.ends_get_bind.2 ?_
  cases hlookup : s.operands.lookup c with
  | some o => exact h.refl e s
  | none =>
    dsimp only
    split
    · exact ⟨h.refl e s, hfinds.raises e _⟩
    · refine Attempt.ends_bind.2 ((hfind s hs).mono (fun o s1 h1 => ?_) fun _ _ h1 => h1)
      exact hfinds.remember hlookup h1

theorem tries_pinExprOperand : A.Tries e 0 (cx.pinExprOperand c) := by
  have hpublish {find : Attempt Operand} {p : Proxy} (hfind : A.Tries e 0 find) :
      A.Tries e 0 (do let o ← find; cx.publish p o; return o) :=
    h.tries_after hfind fun o => h.tries_after (tries_step hfinds.pays_publish) fun _ => h.tries_pure
  refine tries_lift_bind fun x _ => hfinds.tries_memoized h ?_
  split
  · exact hfinds.tries_finds Context.finds_constantOperand
  · exact hpublish (hfinds.tries_finds Context.finds_externalOperand)
  · exact hpublish (hfinds.tries_finds Context.finds_valueOperand)
  · split <;> exact h.tries_throw (hfinds.raises e _)
  · exact h.tries_throw (hfinds.raises e _)

theorem tries_operandOf : A.Tries e 0 (cx.operandOf c) := by
  refine tries_lift_bind fun kind _ => ?_
  split
  · refine hfinds.tries_memoized h (tries_lift_bind fun children _ => tries_lift_bind fun r _ => ?_)
    cases r with
    | none => exact h.tries_throw (hfinds.raises e _)
    | some child => exact hfinds.tries_pinExprOperand h
  · exact hfinds.tries_pinExprOperand h

theorem pays_prepareLocals {site : CallStack}
    (hraised : ∀ function v node, Attempt.Raises (A.reports (.node node)) (cx.localOperand site function v))
    (herror : ∀ s subject error, A.reports subject error →
      A.moves e 0 s { s with report := s.report.error subject error.message }) :
    A.Pays e 0 (cx.prepareLocals site) := by
  refine pays_lift_bind fun r hr => ?_
  cases site.innermost with
  | none => exact h.pays_pure
  | some node => cases r with
    | none => exact h.pays_pure
    | some function =>
      refine h.pays_forM fun v hv s hs => Step.ends_bind.2 ?_
      have hlocal : A.Tries e 0 (cx.localOperand site function.name v) :=
        hfinds.tries_finds (Context.finds_localOperand ⟨hr, hv⟩)
      have hends := Attempt.Ends.both (hlocal s hs) (Attempt.raises_iff.1 (hraised function.name v node) s)
      refine Step.Ends.mono hends fun r s1 h1 => ?_
      cases r with
      | ok _ => exact h1.1
      | error error => exact h.trans h1.1.1 (herror s1 _ error h1.2)

end Account.Locates

theorem Account.Stores.tries_watch {e : ExprId} (hstores : A.Stores) (h : A.Graded) {o : Operand} :
    A.Tries e 0 (cx.watch e o) := by
  refine tries_lift_bind fun x _ => ?_
  split
  · exact h.tries_pure
  · refine tries_lift_bind fun path _ => ?_
    split
    · refine h.tries_after (hstores.tries_finds Context.finds_watchOperand) fun mirror => ?_
      exact tries_step (pays_modify fun s => hstores.mirror e s _)
    · exact h.tries_pure

/-- An account that does not care for operands is lawful if it is so otherwise. -/
theorem Account.Ruled.lawful (h : A.Ruled cx) (hstores : A.Stores)
    (hentry : ∀ {e lower}, A.active e → cx.tree.kind e = .ok .entry → A.Walks lower →
      A.Pays e A.rates.exit (cx.lowerEntry lower e)) : A.Lawful cx :=
  { h with
    throws := fun _ _ => hstores.raises _ _
    entry := hentry
    operand := fun _ _ => hstores.tries_operandOf h.toGraded
    value := fun _ _ => hstores.tries_finds Context.finds_valueOperand
    label := fun {_ n} _ _ => hstores.tries_finds (Context.finds_caseLabel n)
    scratch := fun _ _ => hstores.tries_finds Context.finds_comparisonScratch
    watch := fun _ _ _ _ _ =>
      h.tries_after (hstores.tries_operandOf h.toGraded) fun _ => hstores.tries_watch h.toGraded
    locals := fun e site _ => hstores.pays_prepareLocals h.toGraded (h.raisedForLocal site) (h.error e) }

namespace Account.Answers

variable {α : Type} {A : Account} {cx : Context} (h : A.Answers cx) {e : ExprId} {n : Nat}

include h

/-! ## Operands -/

section Parts

variable {lower : ExprId → Step Unit} {kind : ExprKind} {pins : List String} {pin : String} (he : A.active e)

include he

theorem tries_requiredVar_bind (hpins : cx.askedPins e = .ok pins) (hpin : pin ∈ pins) {f : ExprId → Attempt α}
    (hf : ∀ var, cx.tree.varForPin e pin = .ok (some var) → A.Tries e n (f var)) :
    A.Tries e n (cx.requiredVar e pin >>= f) := by
  unfold Context.requiredVar
  rw [bind_assoc]
  refine tries_lift_bind fun r hr => ?_
  cases r with
  | none =>
    dsimp only
    rw [bind_assoc]
    exact tries_lift_bind fun x hx => h.tries_throw (h.throws he (.missingPin (Tree.expr_eq_ok.1 hx) hpins hpin hr))
  | some var => exact hf var hr

theorem tries_pinOperand (hpins : cx.askedPins e = .ok pins) (hpin : pin ∈ pins) :
    A.Tries e 0 (cx.pinOperand e pin) :=
  h.tries_requiredVar_bind he hpins hpin fun _ hvar => h.operand he (.pin hpins hpin hvar)

theorem tries_callOperands {node : NodeKind} (hkind : cx.tree.kind e = .ok .call)
    (hnode : cx.tree.nodeKindOf e = .ok (some node))
    (hfunction : node = .unit function ∨ node = .forLoop function) (hpins : cx.askedPins e = .ok pins)
    (hparameters : ∀ pin ∈ cx.parameterPins function, pin ∈ pins) :
    A.Tries e 0 (cx.callOperands e function) := by
  unfold Context.callOperands
  unfold Context.parameterPins at hparameters
  cases hfind : cx.env.catalog.find? function with
  | none => exact h.tries_throw (h.throws he (.unknownFunction hkind hnode hfunction hfind))
  | some found =>
    rw [hfind] at hparameters
    refine h.tries_after (h.tries_mapM fun parameter hparameter => ?_) fun _ => h.tries_pure
    exact h.tries_pinOperand he hpins (hparameters _ (List.mem_map_of_mem hparameter))

/-! ## Parts of the walk -/

variable (hlower : A.Walks lower)

include hlower

theorem tries_lowerPin (hkind : cx.tree.kind e = .ok kind) (hexit : kind ≠ .exit)
    (hpins : cx.askedPins e = .ok pins) (hpin : pin ∈ pins) : A.Tries e 0 (cx.lowerPin lower e pin) := by
  refine h.tries_requiredVar_bind he hpins hpin fun var hvar => ?_
  have hchild := h.pays_child he hlower hkind hexit (Tree.isChild_of_varForPin hvar).1
  exact h.tries_after (tries_step hchild) fun _ => h.operand he (.pin hpins hpin hvar)

/-! ## Kinds of expressions -/

theorem tries_lowerBranch (hkind : cx.tree.kind e = .ok .branch) : A.Tries e 0 (cx.lowerBranch lower e) := by
  have hpins : cx.askedPins e = .ok [PinName.condition] := by
    rw [Context.askedPins, hkind]
    rfl
  have hexit : ExprKind.branch ≠ .exit := by decide
  unfold Context.lowerBranch
  cases hpass : cx.pass with
  | setup =>
    refine h.tries_after (tries_step (h.pays_lowerChildren he hlower hkind hexit)) fun _ => ?_
    exact h.tries_after (h.tries_pinOperand he hpins (by simp)) fun _ => h.tries_pure
  | emit =>
    have hblock := h.pays_lowerBlock he hlower hkind hexit
    refine h.tries_after (h.tries_lowerPin he hlower hkind hexit hpins (by simp)) fun condition => ?_
    refine h.tries_after (tries_step (h.pays_alternative hpass (hblock _) (hblock _))) fun _ => ?_
    exact tries_step (hblock _)

theorem tries_lowerIf (hkind : cx.tree.kind e = .ok .ifElse) : A.Tries e 0 (cx.lowerIf lower e) := by
  have hpins : cx.askedPins e =
      .ok [PinName.whenTrue, PinName.whenFalse, PinName.condition, PinName.result] := by
    rw [Context.askedPins, hkind]
    rfl
  have hexit : ExprKind.ifElse ≠ .exit := by decide
  unfold Context.lowerIf
  refine h.tries_requiredVar_bind he hpins (by simp) fun whenTrue htrue => ?_
  refine h.tries_requiredVar_bind he hpins (by simp) fun whenFalse hfalse => ?_
  have hasks {c : ExprId} {pin : String} (hc : cx.tree.varForPin e pin = .ok (some c))
      (hpin : pin ∈ [PinName.whenTrue, PinName.whenFalse, PinName.condition, PinName.result]) :
      A.Tries e 0 (cx.operandOf c) := h.operand he (.pin hpins hpin hc)
  cases hpass : cx.pass with
  | setup =>
    refine h.tries_after (tries_step (h.pays_lowerChildren he hlower hkind hexit)) fun _ => ?_
    refine h.tries_after (h.tries_pinOperand he hpins (by simp)) fun _ => ?_
    refine h.tries_after (h.tries_pinOperand he hpins (by simp)) fun _ => ?_
    refine h.tries_after (hasks htrue (by simp)) fun _ => ?_
    exact h.tries_after (hasks hfalse (by simp)) fun _ => h.tries_pure
  | emit =>
    have harm {c : ExprId} {pin : String} (hc : cx.tree.varForPin e pin = .ok (some c)) (value result : Operand) :
        A.Pays e 0 (do lower c; cx.copyValue value result) :=
      h.pays_after (h.pays_child he hlower hkind hexit (Tree.isChild_of_varForPin hc).1)
        fun _ => h.pays_copyValue _ _
    refine h.tries_after (hasks htrue (by simp)) fun trueValue => ?_
    refine h.tries_after (hasks hfalse (by simp)) fun falseValue => ?_
    refine h.tries_after (h.tries_lowerPin he hlower hkind hexit hpins (by simp)) fun result => ?_
    refine h.tries_after (h.tries_lowerPin he hlower hkind hexit hpins (by simp)) fun condition => ?_
    exact tries_step (h.pays_alternative hpass (harm htrue _ _) (harm hfalse _ _))

theorem tries_lowerSelect (hkind : cx.tree.kind e = .ok .select) {cases : List ExprId}
    (hcases : cx.tree.subPinValues e PinName.values = .ok cases) :
    A.Tries e ((cases.length - 1) * A.rates.comparison) (cx.lowerSelect lower e) := by
  have hexit : ExprKind.select ≠ .exit := by decide
  have hchildren := h.pays_lowerChildren he hlower hkind hexit
  unfold Context.lowerSelect
  refine tries_lift_bind fun cases' hcases' => ?_
  cases hcases.symm.trans hcases'
  cases cases with
  | nil =>
    rw [List.length_nil, Nat.zero_sub, Nat.zero_mul]
    cases hpass : cx.pass with
    | setup => exact h.tries_after (tries_step hchildren) fun _ => tries_step (h.pays_reportWarning _ _)
    | emit => exact h.tries_pure
  | cons first others =>
    have hpins := Context.askedPins_select hkind hcases
    have hvalue {c : ExprId} (hc : c ∈ first :: others) : A.Tries e 0 (cx.operandOf c) :=
      h.operand he (.case hkind hcases hc)
    have hasks {n : Nat} (hn : n ∈ List.range' 1 others.length) : cx.AsksLabel e n := by
      rw [List.mem_range'_1] at hn
      exact ⟨_, hkind, hcases, hn.1, by rw [List.length_cons]; omega⟩
    have hscratch (hne : others ≠ []) : A.Tries e 0 cx.comparisonScratch := by
      have hpos := List.length_pos_iff.2 hne
      have hone : 1 ∈ List.range' 1 others.length := by
        rw [List.mem_range'_1]
        omega
      exact h.scratch he (hasks hone)
    rw [List.length_cons, Nat.add_sub_cancel]
    cases hpass : cx.pass with
    | setup =>
      refine h.tries_raise ?_ (Nat.zero_le _)
      refine h.tries_after (tries_step hchildren) fun _ => ?_
      refine h.tries_after (h.tries_pinOperand he hpins (by simp)) fun _ => ?_
      refine h.tries_after (h.tries_pinOperand he hpins (by simp)) fun _ => ?_
      refine h.tries_after (h.tries_forM fun n hn => ?_) fun _ => ?_
      · exact h.tries_after (h.label he (hasks hn)) fun _ => h.tries_pure
      · have hvalues : A.Tries e 0 ((first :: others).forM fun value => do let _ ← cx.operandOf value) :=
          h.tries_forM fun c hc => h.tries_after (hvalue hc) fun _ => h.tries_pure
        dsimp only
        split
        · next hne => exact h.tries_after (hscratch hne) fun _ => hvalues
        · exact hvalues
    | emit =>
      have harm {c : ExprId} (hc : c ∈ first :: others) (value result : Operand) :
          A.Pays e 0 (do lower c; cx.copyValue value result) :=
        h.pays_after (h.pays_child he hlower hkind hexit (Tree.isChild_of_subPinValues hcases hc))
          fun _ => h.pays_copyValue _ _
      have harms (result firstValue : Operand) (jumps : List Nat) (otherValues : List Operand) :
          A.Pays e 0 (cx.emitCases ((none, do lower first; cx.copyValue firstValue result) ::
            (jumps.zip (others.zip otherValues)).map fun arm =>
              (some arm.1, do lower arm.2.1; cx.copyValue arm.2.2 result))) := by
        refine h.pays_emitCases hpass fun arm hmem => ?_
        rcases List.mem_cons.1 hmem with rfl | hmem
        · exact harm (by simp) _ _
        · obtain ⟨⟨jump, c, value⟩, hzip, rfl⟩ := List.mem_map.1 hmem
          exact harm (List.mem_cons_of_mem _ (List.of_mem_zip (List.of_mem_zip hzip).2).1) _ _
      refine h.tries_after (hvalue (by simp)) fun firstValue => ?_
      refine h.tries_after (h.tries_mapM fun c hc => hvalue (by simp [hc])) fun otherValues => ?_
      refine h.tries_mapM_bind (fun n hn => h.label he (hasks hn)) fun labels hlabels => ?_
      have hresult : A.Tries e 0 (cx.lowerPin lower e PinName.result) :=
        h.tries_lowerPin he hlower hkind hexit hpins (by simp)
      have hindex : A.Tries e 0 (cx.lowerPin lower e PinName.index) :=
        h.tries_lowerPin he hlower hkind hexit hpins (by simp)
      rw [List.length_range'] at hlabels
      rw [← hlabels]
      dsimp only
      split
      · rw [pure_bind]
        refine h.tries_after hresult fun result => h.tries_after hindex fun index => ?_
        exact h.tries_after h.tries_pure fun jumps => h.tries_raise (tries_step (harms _ _ _ _)) (Nat.zero_le _)
      · next hne =>
        rw [bind_map_left]
        refine h.tries_after (hscratch hne) fun scratch => ?_
        refine h.tries_after hresult fun result => h.tries_after hindex fun index => ?_
        refine h.tries_before (tries_step (h.pays_compareIndex labels)) fun jumps => ?_
        exact tries_step (harms _ _ _ _)

theorem tries_lowerForLoop (hkind : cx.tree.kind e = .ok .call)
    (hnode : cx.tree.nodeKindOf e = .ok (some (.forLoop function))) :
    A.Tries e (A.rates.call + A.rates.block) (cx.lowerForLoop lower e function) := by
  have hexit : ExprKind.call ≠ .exit := by decide
  have hpins := Context.askedPins_forLoop hkind hnode
  have hcall : A.Tries e 0 (cx.callOperands e function) :=
    h.tries_callOperands he hkind hnode (.inr rfl) hpins (by simp +contextual)
  unfold Context.lowerForLoop
  cases hpass : cx.pass with
  | setup =>
    refine h.tries_raise ?_ (Nat.zero_le _)
    refine h.tries_after (tries_step (h.pays_lowerChildren he hlower hkind hexit)) fun _ => ?_
    refine h.tries_after hcall fun _ => ?_
    exact h.tries_after (h.tries_pinOperand he hpins (by simp)) fun _ => h.tries_pure
  | emit =>
    unfold Context.counterPins at hpins
    rw [hpass] at hpins
    have hcounter {pin : String} (hpin : pin ∈ [PinName.count, PinName.index, PinName.proceed]) :
        A.Tries e 0 (cx.pinOperand e pin) :=
      h.tries_pinOperand he hpins (List.mem_append_left (cx.parameterPins function) hpin)
    cases hfind : cx.env.catalog.find? function with
    | none => exact h.tries_throw (h.throws he (.unknownFunction hkind hnode (.inr rfl) hfind))
    | some found =>
      refine h.tries_after (h.tries_forM fun pin hpin => ?_) fun _ => ?_
      · refine h.tries_requiredVar_bind he hpins ?_ fun var hvar => tries_step ?_
        · rw [Context.parameterPins, hfind]
          rcases List.mem_append.1 hpin with hpin | hpin
          · exact List.mem_append_right [PinName.count, PinName.index, PinName.proceed] hpin
          · exact List.mem_append_left (found.2.parameters.map (·.name)) (List.mem_filter.1 hpin).1
        · exact h.pays_child he hlower hkind hexit (Tree.isChild_of_varForPin hvar).1
      · refine h.tries_after (hcounter (by simp)) fun count => h.tries_after (hcounter (by simp)) fun index => ?_
        refine h.tries_after (hcounter (by simp)) fun proceed => h.tries_after hcall fun r => ?_
        exact tries_step (h.pays_emitLoop he hlower hpass hkind hexit _ _ _ _)

theorem tries_lowerIterate (hkind : cx.tree.kind e = .ok .array)
    (hpins : cx.askedPins e = .ok ArrayOp.iterate.pinNames) :
    A.Tries e A.rates.block (cx.lowerIterate lower e) := by
  have hexit : ExprKind.array ≠ .exit := by decide
  unfold Context.lowerIterate
  cases hpass : cx.pass with
  | setup =>
    refine h.tries_raise ?_ (Nat.zero_le _)
    refine h.tries_after (tries_step (h.pays_lowerChildren he hlower hkind hexit)) fun _ => ?_
    refine h.tries_forM fun pin hpin => ?_
    exact h.tries_after (h.tries_pinOperand he hpins hpin) fun _ => h.tries_pure
  | emit =>
    have hpin {pin : String} (hpin : pin ∈ ArrayOp.iterate.pinNames) : A.Tries e 0 (cx.lowerPin lower e pin) :=
      h.tries_lowerPin he hlower hkind hexit hpins hpin
    refine h.tries_after (hpin (by decide)) fun array => h.tries_after (hpin (by decide)) fun element => ?_
    refine h.tries_after (hpin (by decide)) fun index => h.tries_after (hpin (by decide)) fun count => ?_
    refine h.tries_after (hpin (by decide)) fun ratio => h.tries_after (hpin (by decide)) fun proceed => ?_
    have hloop (step : Instruction) (hstep : step.price A.rates = 0) :
        A.Pays e A.rates.block (cx.emitLoop lower e count index proceed step) := by
      have hloop := h.pays_emitLoop he hlower hpass hkind hexit count index proceed step
      rwa [hstep, Nat.zero_add] at hloop
    exact tries_step (hloop _ rfl)

theorem tries_lowerValue (hkind : cx.tree.kind e = .ok kind) (hvalue : kind.isValue = true) :
    A.Tries e 0 (cx.lowerValue lower e) := by
  have hexit : kind ≠ .exit := by
    rintro rfl
    cases hvalue
  unfold Context.lowerValue
  refine h.tries_after (tries_step (h.pays_lowerChildren he hlower hkind hexit)) fun _ => ?_
  cases hpass : cx.pass with
  | emit => exact h.tries_pure
  | setup =>
    refine tries_lift_bind fun pin hpin => ?_
    split
    · exact h.tries_pure
    · next hexecute =>
      have hexecute : pin.any Pin.isExecute = false := by simpa using hexecute
      have hasks : cx.Asks e e := .value hpass hkind hvalue hpin hexecute
      rw [hkind]
      by_cases hvar : kind = .var
      · subst hvar
        exact h.watch he hpass hkind hpin hexecute
      · refine h.tries_after (h.operand he hasks) fun o => tries_lift_bind fun kind' hkind' => ?_
        cases hkind'
        rw [if_neg hvar]
        exact h.tries_pure

theorem tries_lowerTransfer (hkind : cx.tree.kind e = .ok kind) (htransfer : kind.isTransfer = true) :
    A.Tries e 0 (cx.lowerTransfer lower e) := by
  have hexit : kind ≠ .exit := by
    rintro rfl
    cases htransfer
  unfold Context.lowerTransfer
  refine h.tries_after (tries_step (h.pays_lowerChildren he hlower hkind hexit)) fun _ => ?_
  refine tries_lift_bind fun x hx => ?_
  have hx : cx.tree.expr? e = some x := Checked.get_eq_ok.1 hx
  rw [Tree.kind_eq hx] at hkind
  cases hkind
  cases hsource : x.source with
  | none => exact h.tries_throw (h.throws he (.missingProxy hx htransfer (.inl hsource)))
  | some source => cases htarget : x.proxy with
    | none => exact h.tries_throw (h.throws he (.missingProxy hx htransfer (.inr htarget)))
    | some target =>
      refine tries_lift_bind fun execute hexecute => ?_
      cases execute with
      | true => exact h.tries_pure
      | false =>
        have hmoves : cx.Transfers e x source target := ⟨hx, htransfer, hsource, htarget, hexecute⟩
        have hread : A.Tries e 0 (cx.transferSource x source) := by
          refine tries_lift_bind fun r hr => ?_
          cases r with
          | none => exact h.value he (.source hmoves hr)
          | some c => exact h.operand he (.source hmoves hr)
        refine h.tries_after hread fun read => h.tries_after (h.value he (.target hmoves)) fun written => ?_
        cases hpass : cx.pass with
        | setup => exact h.tries_pure
        | emit => exact tries_step (h.pays_copyValue _ _)

theorem tries_lowerCall (hkind : cx.tree.kind e = .ok .call) :
    A.Tries e (cx.tree.charge A.rates e) (cx.lowerCall lower e) := by
  unfold Context.lowerCall Tree.charge
  rw [hkind]
  dsimp only
  refine tries_lift_bind fun node hnode => ?_
  rw [hnode]
  have hfail {n : Nat} (hother : ∀ function, node ≠ some (.unit function) ∧ node ≠ some (.forLoop function)) :
      A.Tries e n (do throw (.notCallable (← cx.tree.expr e).name) : Attempt Unit) := by
    refine tries_lift_bind fun x hx => h.tries_throw (h.throws he ?_)
    have hx := Tree.expr_eq_ok.1 hx
    rw [Tree.kind_eq hx] at hkind
    exact .notCalled hx (Except.ok.inj hkind) hnode hother
  cases node with
  | none => exact hfail (by simp)
  | some node => cases node with
    | unit function =>
      have hpins := Context.askedPins_unit hkind hnode
      refine h.tries_after (tries_step (h.pays_lowerChildren he hlower hkind (by decide))) fun _ => ?_
      refine h.tries_after (h.tries_callOperands he hkind hnode (.inl rfl) hpins fun _ hpin => hpin) fun r => ?_
      cases hpass : cx.pass with
      | setup => exact h.tries_pure
      | emit => exact tries_step (h.pays_emit _)
    | forLoop function => exact h.tries_lowerForLoop he hlower hkind hnode
    | _ => exact hfail (by simp)

theorem tries_lowerArray (hkind : cx.tree.kind e = .ok .array) :
    A.Tries e (cx.tree.charge A.rates e) (cx.lowerArray lower e) := by
  unfold Context.lowerArray Tree.charge
  rw [hkind]
  dsimp only
  refine tries_lift_bind fun node hnode => ?_
  rw [hnode]
  have hfail {n : Nat} (hother : ∀ op, node ≠ some (.array op)) :
      A.Tries e n (do throw (.notCallable (← cx.tree.expr e).name) : Attempt Unit) := by
    refine tries_lift_bind fun x hx => h.tries_throw (h.throws he ?_)
    have hx := Tree.expr_eq_ok.1 hx
    rw [Tree.kind_eq hx] at hkind
    exact .noArray hx (Except.ok.inj hkind) hnode hother
  cases node with
  | none => exact hfail (by simp)
  | some node => cases node with
    | array op =>
      have hpins := Context.askedPins_array hkind hnode
      have hplain : A.Tries e 0 (do
          cx.lowerChildren lower e
          let operands ← op.pinNames.mapM (cx.pinOperand e)
          match cx.pass with
          | .setup => return ()
          | .emit => cx.emit (.array op operands)) := by
        refine h.tries_after (tries_step (h.pays_lowerChildren he hlower hkind (by decide))) fun _ => ?_
        refine h.tries_after (h.tries_mapM fun pin hpin => h.tries_pinOperand he hpins hpin) fun operands => ?_
        cases hpass : cx.pass with
        | setup => exact h.tries_pure
        | emit => exact tries_step (h.pays_emit _)
      cases op with
      | iterate => exact h.tries_lowerIterate he hlower hkind hpins
      | _ => exact hplain
    | _ => exact hfail (by simp)

/-- Lowering an expression spends no more than its kind allows. -/
theorem tries_lowerExpr : A.Tries e (cx.tree.charge A.rates e) (cx.lowerExpr lower e) := by
  unfold Context.lowerExpr
  refine tries_lift_bind fun kind hkind => ?_
  have hfree {x : Attempt Unit} (hx : A.Tries e 0 x) : A.Tries e (cx.tree.charge A.rates e) x :=
    h.tries_raise hx (Nat.zero_le _)
  cases kind with
  | block | noOp => exact hfree (tries_step (h.pays_lowerChildren he hlower hkind (by decide)))
  | entry =>
    have hcharge : cx.tree.charge A.rates e = A.rates.exit := by rw [Tree.charge, hkind]
    rw [hcharge]
    exact tries_step (h.entry he hkind hlower)
  | call => exact h.tries_lowerCall he hlower hkind
  | var | literal | externalVar => exact hfree (h.tries_lowerValue he hlower hkind rfl)
  | assign | copy => exact hfree (h.tries_lowerTransfer he hlower hkind rfl)
  | cachedValue =>
    refine hfree (h.tries_after (tries_step (h.pays_lowerChildren he hlower hkind (by decide))) fun _ => ?_)
    exact h.tries_after (h.operand he (.cached hkind)) fun _ => h.tries_pure
  | exit =>
    have hcharge : cx.tree.charge A.rates e = A.rates.exit := by rw [Tree.charge, hkind]
    rw [hcharge]
    cases hpass : cx.pass with
    | setup => exact h.tries_pure
    | emit => exact tries_step (h.pays_emit _)
  | branch => exact hfree (h.tries_lowerBranch he hlower hkind)
  | ifElse => exact hfree (h.tries_lowerIf he hlower hkind)
  | select =>
    cases hcases : cx.tree.subPinValues e PinName.values with
    | error f =>
      refine fun s _ => ?_
      unfold Context.lowerSelect
      rw [hcases]
      trivial
    | ok cases =>
      have hcharge : cx.tree.charge A.rates e = (cases.length - 1) * A.rates.comparison := by
        rw [Tree.charge, hkind, hcases]
      rw [hcharge]
      exact h.tries_lowerSelect he hlower hkind hcases
  | array => exact h.tries_lowerArray he hlower hkind

end Parts
end Account.Answers

/-! ## Entering a call stack -/

namespace Account.Ruled

variable {A : Account} {cx : Context} (h : A.Ruled cx) {e : ExprId}

include h

theorem pays_fail (herror : error.isReported = true → A.reports (error.subject e) error) :
    A.Pays e 0 (fail e error) := by
  refine h.pays_after (pays_modify fun s => h.failed e s) fun _ => ?_
  split
  · next hreported => exact pays_modify fun s => h.error e s _ _ (herror hreported)
  · exact h.pays_pure

theorem pays_enterFrames (stack : CallStack) : A.Pays e 0 (cx.enterFrames stack) := by
  intro s _
  exact Step.ends_get_bind.2 (Step.ends_lift_bind fun _ _ => h.aside rfl)

end Account.Ruled

namespace Account.Lawful

variable {A : Account} {cx : Context} (h : A.Lawful cx) {e : ExprId}

include h

theorem pays_initializeSite (site : CallStack) : A.Pays e 0 (cx.initializeSite site) := by
  intro s hs
  unfold Context.initializeSite
  refine Step.ends_get_bind.2 ?_
  cases hpass : cx.pass with
  | setup =>
    dsimp only
    split
    · exact h.refl e s
    · have hmark : A.moves e 0 s { s with prepared := site :: s.prepared } := h.aside rfl
      refine Step.ends_bind.2 (Step.ends_set.2 ?_)
      exact (h.locals e site hpass _ (h.keeps hs hmark)).mono fun _ _ h1 => h.trans hmark h1
  | emit =>
    dsimp only
    split
    · exact h.refl e s
    · have hmark : A.moves e 0 s { s with initialized := site :: s.initialized } := h.aside rfl
      have hrecord : A.Pays e 0 (recordInitializers site s.code.size) := pays_modify fun s => h.aside rfl
      refine Step.ends_bind.2 (Step.ends_set.2 ?_)
      split
      · exact hmark
      · have hrest := h.pays_after (h.pays_emitInitializers site) fun _ => hrecord
        exact (hrest _ (h.keeps hs hmark)).mono fun _ _ h1 => h.trans hmark h1

theorem pays_initializeLocals (stack : CallStack) : A.Pays e 0 (cx.initializeLocals stack) :=
  h.pays_forM fun site _ => h.pays_initializeSite site

/-! ## The walk -/

section Walk

variable {lower : ExprId → Step Unit} (he : A.active e) (hlower : A.Walks lower)

include he hlower

theorem pays_lowerUnder : A.Pays e (cx.tree.charge A.rates e) (cx.lowerUnder lower e) := by
  have hstack (f : State → CallStack) : A.Pays e 0 (modify fun s => { s with callStack := f s }) :=
    pays_modify fun s => h.aside rfl
  refine h.pays_after h.pays_get fun s => pays_lift_bind fun x _ => ?_
  refine h.pays_after (h.pays_enterFrames _) fun _ => h.pays_after (h.pays_initializeLocals _) fun _ => ?_
  refine h.pays_after (hstack _) fun _ s1 hs1 => Step.ends_bind.2 ?_
  have hends := Attempt.Ends.both (h.tries_lowerExpr he hlower s1 hs1) (Attempt.raises_iff.1 (h.raised he) s1)
  refine Step.Ends.mono hends fun r s2 h2 => ?_
  cases r with
  | ok _ => exact (hstack _ s2 (h.keeps hs1 h2.1)).mono fun _ _ h3 => h.trans h2.1 h3
  | error error =>
    have hrest := h.pays_after (h.pays_fail h2.2) fun _ => hstack fun _ => s.callStack
    exact (hrest s2 (h.keeps hs1 h2.1.1)).mono fun _ _ h3 => h.trans h2.1.1 h3

omit he

theorem walks_lowerOnce : A.Walks (cx.lowerOnce lower) := by
  intro e he s hs
  unfold Context.lowerOnce
  refine Step.ends_get_bind.2 ?_
  split
  · next hmet => exact h.skip he hs hmet
  · next hmet =>
    obtain ⟨hfailed, hvisited⟩ := not_or.1 hmet
    obtain ⟨hactive, hs1⟩ := h.visit he hs hfailed hvisited
    refine Step.ends_bind.2 (Step.ends_set.2 (Step.ends_bind.2 ?_))
    have hrun := Checked.Ends.and (h.pays_lowerUnder hactive hlower _ hs1) (h.ends hactive hs1 hlower)
    exact Checked.Ends.mono hrun fun r h1 => h.once he hs hfailed hvisited h1.1 h1.2

omit hlower

theorem walks_lowerWithin (depth : Nat) : A.Walks (cx.lowerWithin depth) := by
  induction depth with
  | zero => exact fun _ _ _ _ => trivial
  | succ depth ih => exact h.walks_lowerOnce ih

/-- What a pass does is what is done in lowering one root after another. -/
theorem moves_of_lowerRoots (hroots : ∀ e ∈ cx.tree.roots, A.known e) {s' : State} (hs : A.guard s.restarted)
    (hrun : cx.lowerRoots s = .ok ((), s')) (e : ExprId) : A.moves e 0 s.restarted s' := by
  have hpays : A.Pays e 0 (cx.tree.roots.forM cx.lower) := h.pays_forM fun c hc s hs =>
    (h.walks_lowerWithin _ c (hroots c hc) s hs).mono fun _ _ h1 => h.of_lowers h1
  have hends := Checked.Ends.of_ok (hpays s.restarted hs) hrun
  exact hends

end Walk
end Account.Lawful
end Lowering
end NodeGraph
