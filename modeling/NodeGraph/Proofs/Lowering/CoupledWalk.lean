import NodeGraph.Proofs.Lowering.Coupling

/-!
# The coupled walk

Every function of the walk is coupled with itself in the other context, by the laws of the coupling and the
rules for binds and loops. The proofs follow the functions; `known` expressions lead to known ones, since
the walk goes from an expression to its children and to blocks below them.
-/
namespace NodeGraph.Lowering.Coupling

open Context

variable {α β : Type} {cx cx' : Context} {C : Coupling cx cx'} [C.Lawful] {P : Prop} {e : ExprId} {p : Proxy}
  {pin function : String} {o o' q q' : Operand} {lower lower' : ExprId → Step Unit} {i i' : Instruction}
  {a a' : Nat} {S : α → α → Prop} {find find' : Attempt Operand} {jumps jumps' : List Nat}
  {values values' : List Operand} {outer : CallStack} {r : Except LowerError Unit} {u : State}

theorem tree_eq (C : Coupling cx cx') [C.Lawful] : cx'.tree = cx.tree := Lawful.tree (C := C)

theorem env_eq (C : Coupling cx cx') [C.Lawful] : cx'.env = cx.env := Lawful.env (C := C)

theorem pass_eq (C : Coupling cx cx') [C.Lawful] : cx'.pass = cx.pass := Lawful.pass (C := C)

/-! ## Emission -/

theorem walks_emit (h : P → i.Like C.twin i') : C.Walks P (cx.emit i) (cx'.emit i') fun _ _ => True :=
  ⟨keeps_emit _, keeps_emit _, fun hp => Lawful.emit (h hp)⟩

theorem walks_copyValue (h : P → C.twin o o') (h' : P → C.twin q q') :
    C.Walks P (cx.copyValue o q) (cx'.copyValue o' q') fun _ _ => True :=
  ⟨keeps_copyValue, keeps_copyValue, fun hp => Lawful.copyValue (h hp) (h' hp)⟩

theorem walks_land (h : P → C.jump a a') : C.Walks P (land a) (land a') fun _ _ => True :=
  ⟨keeps_land _, keeps_land _, fun hp => Lawful.land (h hp)⟩

theorem walks_here : C.Walks P here here C.addr :=
  ⟨keeps_here, keeps_here, fun _ _ _ hrel _ => ⟨hrel, Lawful.addr_size hrel⟩⟩

theorem walks_reserve (hjump : i.isJump) (h : P → i.Like C.twin i') :
    C.Walks P (cx.reserve i) (cx'.reserve i') C.jump :=
  ⟨keeps_reserve _, keeps_reserve _, fun hp => Lawful.reserve (h hp) hjump⟩

theorem walks_jumpBack (h : P → C.addr a a') :
    C.Walks P (do cx.emit (.jumpBackward ((← here) - a))) (do cx'.emit (.jumpBackward ((← here) - a')))
      fun _ _ => True := by
  refine ⟨?_, ?_, fun hp => Lawful.jumpBack (h hp)⟩
  · exact keeps_here.bind fun _ => keeps_emit _
  · exact keeps_here.bind fun _ => keeps_emit _

/-! ## Operands -/

omit [C.Lawful] in
theorem tries_of_finds {a a' : Attempt α} {Q Q' : Storage → α → Prop} (h : cx.Finds a Q) (h' : cx'.Finds a' Q')
    (hattempts : C.Attempts a a' S) : C.Tries P a a' S :=
  ⟨Context.Finds.tries h, Context.Finds.tries h', fun _ => hattempts⟩

theorem tries_value (hp : cx.tree.Mentions p) : C.Tries P (cx.valueOperand p) (cx'.valueOperand p) C.twin :=
  tries_of_finds finds_valueOperand finds_valueOperand (Lawful.value hp)

theorem tries_caseLabel (n : Nat) : C.Tries P (cx.caseLabel n) (cx'.caseLabel n) C.twin :=
  tries_of_finds (finds_caseLabel n) (finds_caseLabel n) (Lawful.caseLabel n)

theorem tries_scratch : C.Tries P cx.comparisonScratch cx'.comparisonScratch C.twin :=
  tries_of_finds finds_comparisonScratch finds_comparisonScratch Lawful.scratch

/-- Keeps an operand that was found. -/
def remembered (e : ExprId) :
    Except LowerError Operand × State → Except LowerError Operand × State
  | (.ok o, u) => (.ok o, u.remember e o)
  | r => r

theorem memoized_run (e : ExprId) (find : Attempt Operand) (u : State) :
    (memoized e find).run u = match u.operands.lookup e with
      | some o => .ok (.ok o, u)
      | none =>
        if e ∈ u.failed then .ok (.error .dependencyFailed, u) else (find.run u).map (remembered e) := by
  show (match u.operands.lookup e with | some _ => _ | none => _ : Attempt Operand).run u = _
  cases u.operands.lookup e with
  | some o => rfl
  | none =>
    dsimp only
    split
    · rfl
    · rw [ExceptT.run_bind]
      show (find.run u >>= _) = _
      cases find.run u with
      | error f => rfl
      | ok r =>
        obtain ⟨r, u1⟩ := r
        cases r <;> rfl

theorem meets_remembered {x y : Checked (Except LowerError Operand × State)}
    (h : C.Meets (C.Agrees C.twin) x y) :
    C.Meets (C.Agrees C.twin) (x.map (remembered e)) (y.map (remembered e)) := by
  cases x with
  | error f => cases y <;> exact h
  | ok r => cases y with
    | error f => exact h
    | ok r' =>
      obtain ⟨r, u⟩ := r
      obtain ⟨r', s⟩ := r'
      cases r with
      | error error => cases r' with
        | error error' => exact h
        | ok o' => exact fun _ hstrict => h (Coherent.good_of_strict hstrict u s) hstrict
      | ok o => cases r' with
        | error error' => exact fun _ hstrict => h (Coherent.good_of_strict hstrict u s) hstrict
        | ok o' =>
          intro hgood
          have hagrees := h (Lawful.good_of_remember hgood)
          exact ⟨Lawful.remember hagrees.1 hagrees.2 e, hagrees.2⟩

theorem attempts_memoized (h : C.Attempts find find' C.twin) :
    C.Attempts (memoized e find) (memoized e find') C.twin := by
  intro u s hrel
  rw [memoized_run, memoized_run]
  have hlookup := Lawful.lookup hrel e
  generalize u.operands.lookup e = found at hlookup ⊢
  generalize s.operands.lookup e = found' at hlookup ⊢
  cases hlookup with
  | some ho => exact fun _ => ⟨hrel, ho⟩
  | none =>
    dsimp only
    by_cases hfailed : e ∈ u.failed
    · rw [if_pos hfailed, if_pos ((Lawful.failed hrel e).1 hfailed)]
      exact fun _ _ => ⟨hrel, rfl⟩
    · rw [if_neg hfailed, if_neg (mt (Lawful.failed hrel e).2 hfailed)]
      exact meets_remembered (h hrel)

/-- A found operand is published. -/
theorem tries_published (h : C.Tries P find find' C.twin) :
    C.Tries P (do let o ← find; cx.publish p o; return o) (do let o ← find'; cx'.publish p o; return o)
      C.twin := by
  refine h.bind fun o o' => ?_
  have hpublish : C.Walks (P ∧ C.twin o o') (cx.publish p o) (cx'.publish p o') fun _ _ => True :=
    ⟨keeps_publish, keeps_publish, fun hp => Lawful.publish p hp.2⟩
  exact (tries_step hpublish).seq fun _ _ => tries_pure And.right

theorem tries_pinExprOperand : C.Tries P (cx.pinExprOperand e) (cx'.pinExprOperand e) C.twin := by
  refine ⟨Context.tries_pinExprOperand, Context.tries_pinExprOperand, fun _ => ?_⟩
  unfold pinExprOperand
  rw [tree_eq C]
  cases hx : cx.tree.expr e with
  | error f => exact fun _ _ _ _ => rfl
  | ok x =>
    have hx : cx.tree.expr? e = some x := Checked.get_eq_ok.1 hx
    refine attempts_memoized ?_
    suffices h : C.Tries True _ _ C.twin from h.attempts trivial
    cases hp : x.proxy with
    | none =>
      cases x.kind <;> exact tries_throw
    | some p =>
      cases hkind : x.kind with
      | literal =>
        exact tries_of_finds finds_constantOperand finds_constantOperand (Lawful.constant p)
      | externalVar =>
        refine tries_published ?_
        exact tries_of_finds finds_externalOperand finds_externalOperand (Lawful.external p)
      | var => exact tries_published (tries_value ⟨e, x, hx, .inl hp⟩)
      | _ => exact tries_throw

theorem tries_operandOf : C.Tries P (cx.operandOf e) (cx'.operandOf e) C.twin := by
  refine ⟨Context.tries_operandOf, Context.tries_operandOf, fun hp => ?_⟩
  unfold operandOf
  rw [tree_eq C]
  cases hkind : cx.tree.kind e with
  | error f => exact fun _ _ _ _ => rfl
  | ok kind =>
    show C.Attempts _ _ _
    cases kind with
    | cachedValue =>
      refine attempts_memoized ?_
      suffices h : C.Tries True _ _ C.twin from h.attempts trivial
      refine tries_lift_bind fun children _ => tries_lift_bind fun r _ => ?_
      cases r with
      | none => exact tries_throw
      | some child => exact tries_pinExprOperand
    | _ => exact tries_pinExprOperand.attempts hp

/-! ## Pins -/

/-- The child of a pin is the same for both. -/
theorem tries_requiredVar_bind {f f' : ExprId → Attempt α}
    (h : ∀ var x, cx.tree.IsChild e var → cx.tree.expr? var = some x → x.kind.isValue = true →
      C.Tries P (f var) (f' var) S) :
    C.Tries P (cx.requiredVar e pin >>= f) (cx'.requiredVar e pin >>= f') S := by
  unfold requiredVar
  rw [tree_eq C, bind_assoc, bind_assoc]
  refine tries_lift_bind fun r hr => ?_
  cases r with
  | none =>
    dsimp only
    rw [bind_assoc, bind_assoc]
    exact tries_lift_bind fun x _ => tries_throw
  | some var =>
    obtain ⟨hchild, x, hx, hvalue⟩ := Tree.isChild_of_varForPin hr
    exact h var x hchild hx hvalue

theorem tries_pinOperand : C.Tries P (cx.pinOperand e pin) (cx'.pinOperand e pin) C.twin :=
  tries_requiredVar_bind fun _ _ _ _ _ => tries_operandOf

theorem tries_callOperands :
    C.Tries P (cx.callOperands e function) (cx'.callOperands e function) fun r r' =>
      r.1 = r'.1 ∧ List.Forall₂ C.twin r.2 r'.2 := by
  unfold callOperands
  rw [env_eq C]
  cases cx.env.catalog.find? function with
  | none => exact tries_throw
  | some found =>
    refine (tries_mapM fun parameter _ => tries_pinOperand).bind fun _ _ => ?_
    exact tries_pure fun hp => ⟨rfl, hp.2⟩

theorem tries_watch (h : P → C.twin o o') : C.Tries P (cx.watch e o) (cx'.watch e o') fun _ _ => True :=
  ⟨Context.tries_watch, Context.tries_watch, fun hp => Lawful.watch e (h hp)⟩

/-! ## Parts of the walk -/

variable (C) in
/-- All children of an expression are known. -/
def Opens (e : ExprId) : Prop := ∀ c, cx.tree.IsChild e c → C.known c

theorem opens_of_known {x : Expression} (h : C.known e) (hx : cx.tree.expr? e = some x)
    (hkind : x.kind ≠ .exit) : C.Opens e := by
  rintro c ⟨y, hy, hc⟩
  cases hx.symm.trans hy
  exact Lawful.known_child h hx hkind hc

variable (C) in
/-- Two ways to lower an expression are coupled at known expressions. -/
def Lowers (lower lower' : ExprId → Step Unit) : Prop :=
  ∀ c, C.Walks (C.known c) (lower c) (lower' c) fun _ _ => True

section Parts

variable (h : C.Lowers lower lower')
include h

omit [C.Lawful] in
theorem Lowers.child {c : ExprId} (hc : cx.tree.IsChild e c) (hp : P → C.Opens e) :
    C.Walks P (lower c) (lower' c) fun _ _ => True := (h c).of_imp fun hP => hp hP c hc

theorem Lowers.walks_lowerChildren (hp : P → C.Opens e) :
    C.Walks P (cx.lowerChildren lower e) (cx'.lowerChildren lower' e) fun _ _ => True := by
  unfold lowerChildren
  rw [tree_eq C]
  refine walks_lift_bind fun children hchildren => walks_forM fun c hc => ?_
  exact h.child (Tree.isChild_of_mem hchildren hc) hp

theorem Lowers.tries_lowerPin (hp : P → C.Opens e) :
    C.Tries P (cx.lowerPin lower e pin) (cx'.lowerPin lower' e pin) C.twin := by
  refine tries_requiredVar_bind fun var x hchild _ _ => ?_
  exact (tries_step (h.child hchild hp)).seq fun _ _ => tries_operandOf

/-- A block is below a child, which is a value and so has known children itself. -/
theorem Lowers.walks_lowerBlock (hp : P → C.Opens e) :
    C.Walks P (cx.lowerBlock lower e pin) (cx'.lowerBlock lower' e pin) fun _ _ => True := by
  unfold lowerBlock
  rw [tree_eq C]
  refine walks_lift_bind fun r hr => ?_
  cases r with
  | none => exact walks_pure fun _ => trivial
  | some block =>
    obtain ⟨v, x, hv, hx, hvalue, hblock⟩ := Tree.isChild_of_blockForPin hr
    refine (h block).of_imp fun hP => Lawful.known_child (hp hP v hv) hx ?_ hblock
    rintro hexit
    rw [hexit] at hvalue
    cases hvalue

end Parts

theorem walks_alternative {whenTrue whenFalse whenTrue' whenFalse' : Step Unit} (ho : P → C.twin o o')
    (ht : C.Walks P whenTrue whenTrue' fun _ _ => True)
    (hf : C.Walks P whenFalse whenFalse' fun _ _ => True) :
    C.Walks P (cx.alternative o whenTrue whenFalse) (cx'.alternative o' whenTrue' whenFalse')
      fun _ _ => True := by
  refine (walks_reserve rfl fun hp => .jumpIf (ho hp)).bind fun toFalse toFalse' => ?_
  refine (ht.of_imp And.left).seq fun _ _ => ?_
  refine (walks_reserve rfl fun _ => .jumpForward).bind fun toEnd toEnd' => ?_
  refine (walks_land fun hp => hp.1.2).seq fun _ _ => ?_
  exact (hf.of_imp fun hp => hp.1.1).seq fun _ _ => walks_land And.right

theorem walks_landOption {jump jump' : Option Nat} (h : P → Option.Rel C.jump jump jump') :
    C.Walks P (jump.forM land) (jump'.forM land) fun _ _ => True := by
  have hkeeps (cx : Context) (jump : Option Nat) : cx.Keeps (jump.forM land) := by
    cases jump
    · exact keeps_pure
    · exact keeps_land _
  refine ⟨hkeeps cx jump, hkeeps cx' jump', fun hp => ?_⟩
  cases h hp with
  | none => exact fun _ _ hrel _ => ⟨hrel, trivial⟩
  | some ha => exact Lawful.land ha

theorem walks_emitCases {arms arms' : List (Option Nat × Step Unit)}
    (hkeeps : ∀ arm ∈ arms, cx.Keeps arm.2) (hkeeps' : ∀ arm ∈ arms', cx'.Keeps arm.2)
    (h : P → List.Forall₂ (fun arm arm' => Option.Rel C.jump arm.1 arm'.1 ∧
      C.Walks P arm.2 arm'.2 fun _ _ => True) arms arms') :
    C.Walks P (cx.emitCases arms) (cx'.emitCases arms') fun _ _ => True := by
  refine ⟨keeps_emitCases hkeeps, keeps_emitCases hkeeps', fun hp => ?_⟩
  suffices hwalks : C.Walks P (cx.emitCases arms) (cx'.emitCases arms') fun _ _ => True from hwalks.steps hp
  have harms := h hp
  clear hkeeps hkeeps' h
  induction harms with
  | nil => exact walks_pure fun _ => trivial
  | @cons arm arm' rest rest' harm hrest ih =>
    obtain ⟨jump, body⟩ := arm
    obtain ⟨jump', body'⟩ := arm'
    cases hrest with
    | nil => exact (walks_landOption fun _ => harm.1).seq fun _ _ => harm.2
    | cons _ _ =>
      refine (walks_landOption fun _ => harm.1).seq fun _ _ => harm.2.seq fun _ _ => ?_
      refine (walks_reserve rfl fun _ => .jumpForward).bind fun toEnd toEnd' => ?_
      exact (ih.of_imp And.left).seq fun _ _ => walks_land And.right

theorem walks_compareIndex {labels labels' : List Operand} (ho : P → C.twin o o') (hq : P → C.twin q q')
    (hlabels : P → List.Forall₂ C.twin labels labels') :
    C.Walks P (cx.compareIndex o q labels) (cx'.compareIndex o' q' labels') (List.Forall₂ C.jump) := by
  refine ⟨keeps_compareIndex, keeps_compareIndex, fun hp => ?_⟩
  suffices hwalks : C.Walks P (cx.compareIndex o q labels) (cx'.compareIndex o' q' labels')
    (List.Forall₂ C.jump) from hwalks.steps hp
  unfold compareIndex
  replace hlabels := hlabels hp
  induction hlabels with
  | nil => exact walks_pure fun _ => .nil
  | @cons label label' labels labels' hlabel _ ih =>
    rw [List.mapM_cons, List.mapM_cons]
    have hcase : C.Walks P (do cx.emit (.equals o label q); cx.reserve (.jumpIf q 0 true))
        (do cx'.emit (.equals o' label' q'); cx'.reserve (.jumpIf q' 0 true)) C.jump := by
      refine (walks_emit fun hp => .equals (ho hp) hlabel (hq hp)).seq fun _ _ => ?_
      exact walks_reserve rfl fun hp => .jumpIf (hq hp)
    refine hcase.bind fun _ _ => (ih.of_imp And.left).bind fun _ _ => ?_
    exact walks_pure fun hp => .cons hp.1.2 hp.2

theorem Lowers.walks_emitLoop (h : C.Lowers lower lower') {count count' index index' proceed proceed' : Operand}
    {step step' : Instruction} (hp : P → C.Opens e) (hcount : P → C.twin count count')
    (hindex : P → C.twin index index') (hproceed : P → C.twin proceed proceed')
    (hstep : P → step.Like C.twin step') :
    C.Walks P (cx.emitLoop lower e count index proceed step)
      (cx'.emitLoop lower' e count' index' proceed' step') fun _ _ => True := by
  have hblock (pin : String) : C.Walks P (cx.lowerBlock lower e pin) (cx'.lowerBlock lower' e pin)
      fun _ _ => True := h.walks_lowerBlock hp
  refine (walks_emit fun hp => .zero (hindex hp)).seq fun _ _ => walks_here.bind fun top top' => ?_
  refine (walks_emit fun hp => hstep hp.1).seq fun _ _ => ?_
  refine (walks_reserve rfl fun hp => .jumpIf (hproceed hp.1)).bind fun toDone toDone' => ?_
  refine (walks_emit fun hp => .beginBlock (hcount hp.1.1) (hindex hp.1.1)).seq fun _ _ => ?_
  refine ((hblock _).of_imp fun hp => hp.1.1).seq fun _ _ => (walks_emit fun _ => .endBlock).seq fun _ _ => ?_
  refine (walks_emit fun hp => .increment (hindex hp.1.1)).seq fun _ _ => ?_
  rw [← bind_assoc here, ← bind_assoc here]
  refine (walks_jumpBack fun hp => hp.1.2).seq fun _ _ => (walks_land And.right).seq fun _ _ => ?_
  exact (hblock _).of_imp fun hp => hp.1.1

/-- The cases of a selection are paired with their jumps and operands. -/
theorem forall₂_zip {R : Nat → Nat → Prop} {T : Operand → Operand → Prop} (hjumps : List.Forall₂ R jumps jumps')
    (hvalues : List.Forall₂ T values values') (vars : List ExprId) :
    List.Forall₂ (fun arm arm' => arm.2.1 ∈ vars ∧ R arm.1 arm'.1 ∧ arm.2.1 = arm'.2.1 ∧ T arm.2.2 arm'.2.2)
      (jumps.zip (vars.zip values)) (jumps'.zip (vars.zip values')) := by
  induction hjumps generalizing vars values values' with
  | nil => exact .nil
  | cons hjump _ ih =>
    cases vars with
    | nil => exact .nil
    | cons var vars => cases hvalues with
      | nil => exact .nil
      | cons hvalue hvalues =>
        refine .cons ⟨by simp, hjump, rfl, hvalue⟩ ((ih hvalues vars).imp fun arm arm' harm => ?_)
        exact ⟨by simp [harm.1], harm.2⟩

/-! ## Kinds of expressions -/

section Kinds

variable (h : C.Lowers lower lower')
include h

theorem Lowers.tries_lowerChildren :
    C.Tries (C.Opens e) (liftM (cx.lowerChildren lower e)) (liftM (cx'.lowerChildren lower' e))
      fun _ _ => True := tries_step (h.walks_lowerChildren id)

theorem Lowers.tries_lowerBranch :
    C.Tries (C.Opens e) (cx.lowerBranch lower e) (cx'.lowerBranch lower' e) fun _ _ => True := by
  unfold lowerBranch
  rw [pass_eq C]
  cases cx.pass with
  | setup =>
    refine h.tries_lowerChildren.seq fun _ _ => ?_
    exact tries_pinOperand.seq fun _ _ => tries_pure fun _ => trivial
  | emit =>
    have hblock (pin : String) : C.Walks (C.Opens e) (cx.lowerBlock lower e pin)
        (cx'.lowerBlock lower' e pin) fun _ _ => True := h.walks_lowerBlock id
    refine (h.tries_lowerPin id).bind fun condition condition' => ?_
    have halternative := walks_alternative (C := C) (P := C.Opens e ∧ C.twin condition condition') And.right
      ((hblock PinName.whenTrue).of_imp And.left) ((hblock PinName.whenFalse).of_imp And.left)
    exact (tries_step halternative).seq fun _ _ => tries_step ((hblock _).of_imp And.left)

/-- An arm lowers a value and copies it. -/
theorem Lowers.walks_arm {var : ExprId} (hvar : cx.tree.IsChild e var) (hp : P → C.Opens e)
    (ho : P → C.twin o o') (hq : P → C.twin q q') :
    C.Walks P (do lower var; cx.copyValue o q) (do lower' var; cx'.copyValue o' q') fun _ _ => True :=
  (h.child hvar hp).seq fun _ _ => walks_copyValue ho hq

theorem Lowers.tries_lowerIf :
    C.Tries (C.Opens e) (cx.lowerIf lower e) (cx'.lowerIf lower' e) fun _ _ => True := by
  unfold lowerIf
  refine tries_requiredVar_bind fun whenTrue _ htrue _ _ => ?_
  refine tries_requiredVar_bind fun whenFalse _ hfalse _ _ => ?_
  rw [pass_eq C]
  cases cx.pass with
  | setup =>
    refine h.tries_lowerChildren.seq fun _ _ => tries_pinOperand.seq fun _ _ => ?_
    refine tries_pinOperand.seq fun _ _ => tries_operandOf.seq fun _ _ => ?_
    exact tries_operandOf.seq fun _ _ => tries_pure fun _ => trivial
  | emit =>
    refine tries_operandOf.bind fun _ _ => tries_operandOf.bind fun _ _ => ?_
    refine (h.tries_lowerPin fun hp => hp.1.1).bind fun _ _ => ?_
    refine (h.tries_lowerPin fun hp => hp.1.1.1).bind fun _ _ => tries_step ?_
    exact walks_alternative And.right
      (h.walks_arm htrue (fun hp => hp.1.1.1.1) (fun hp => hp.1.1.1.2) fun hp => hp.1.2)
      (h.walks_arm hfalse (fun hp => hp.1.1.1.1) (fun hp => hp.1.1.2) fun hp => hp.1.2)

theorem Lowers.walks_cases {first : ExprId} {others : List ExprId} (hfirst : cx.tree.IsChild e first)
    (hothers : ∀ var ∈ others, cx.tree.IsChild e var) (hp : P → C.Opens e) (ho : P → C.twin o o')
    (hq : P → C.twin q q') (hjumps : P → List.Forall₂ C.jump jumps jumps')
    (hvalues : P → List.Forall₂ C.twin values values') :
    C.Walks P
      (cx.emitCases ((none, do lower first; cx.copyValue o q) :: (jumps.zip (others.zip values)).map
        fun arm => (some arm.1, do lower arm.2.1; cx.copyValue arm.2.2 q)))
      (cx'.emitCases ((none, do lower' first; cx'.copyValue o' q') :: (jumps'.zip (others.zip values')).map
        fun arm => (some arm.1, do lower' arm.2.1; cx'.copyValue arm.2.2 q'))) fun _ _ => True := by
  refine walks_emitCases ?_ ?_ fun hP => .cons ⟨.none, h.walks_arm hfirst hp ho hq⟩ ?_
  · intro arm harm
    rcases List.mem_cons.1 harm with rfl | harm
    · exact (h first).left.bind fun _ => keeps_copyValue
    · obtain ⟨arm, -, rfl⟩ := List.mem_map.1 harm
      exact (h arm.2.1).left.bind fun _ => keeps_copyValue
  · intro arm harm
    rcases List.mem_cons.1 harm with rfl | harm
    · exact (h first).right.bind fun _ => keeps_copyValue
    · obtain ⟨arm, -, rfl⟩ := List.mem_map.1 harm
      exact (h arm.2.1).right.bind fun _ => keeps_copyValue
  · rw [List.forall₂_map_left_iff, List.forall₂_map_right_iff]
    refine (forall₂_zip (hjumps hP) (hvalues hP) others).imp fun arm arm' ⟨hmem, hjump, hvar, hvalue⟩ => ?_
    refine ⟨.some hjump, ?_⟩
    rw [← hvar]
    exact h.walks_arm (hothers _ hmem) hp (fun _ => hvalue) hq

theorem Lowers.tries_lowerSelect :
    C.Tries (C.Opens e) (cx.lowerSelect lower e) (cx'.lowerSelect lower' e) fun _ _ => True := by
  unfold lowerSelect
  rw [tree_eq C, pass_eq C]
  refine tries_lift_bind fun cases hcases => ?_
  have hchild : ∀ c ∈ cases, cx.tree.IsChild e c := fun c hc => Tree.isChild_of_subPinValues hcases hc
  cases cx.pass with
  | setup => cases cases with
    | nil =>
      refine h.tries_lowerChildren.seq fun _ _ => tries_step ?_
      exact ⟨keeps_reportWarning _ _, keeps_reportWarning _ _, fun _ => Lawful.warning _ _⟩
    | cons first others =>
      refine h.tries_lowerChildren.seq fun _ _ => ?_
      refine tries_pinOperand.seq fun _ _ => tries_pinOperand.seq fun _ _ => ?_
      refine (tries_forM fun label _ => ?_).seq fun _ _ => ?_
      · exact (tries_caseLabel label).seq fun _ _ => tries_pure fun _ => trivial
      have hvalues (values : List ExprId) : C.Tries (C.Opens e)
          (values.forM fun value => do let _ ← cx.operandOf value)
          (values.forM fun value => do let _ ← cx'.operandOf value) fun _ _ => True :=
        tries_forM fun value _ => tries_operandOf.seq fun _ _ => tries_pure fun _ => trivial
      dsimp only
      split
      · exact tries_scratch.seq fun _ _ => hvalues _
      · exact hvalues _
  | emit => cases cases with
    | nil => exact tries_pure fun _ => trivial
    | cons first others =>
      have hfirst := hchild first (by simp)
      have hothers : ∀ var ∈ others, cx.tree.IsChild e var := fun var hvar => hchild var (by simp [hvar])
      refine tries_operandOf.bind fun value value' => ?_
      refine (tries_mapM fun _ _ => tries_operandOf).bind fun values values' => ?_
      refine (tries_mapM fun label _ => tries_caseLabel label).bind fun labels labels' => ?_
      dsimp only
      split
      · rw [pure_bind, pure_bind]
        refine (h.tries_lowerPin fun hp => hp.1.1.1).bind fun result result' => ?_
        refine (h.tries_lowerPin fun hp => hp.1.1.1.1).seq fun index index' => ?_
        refine tries_step (h.walks_cases hfirst hothers (fun hp => hp.1.1.1.1) (fun hp => hp.1.1.1.2)
          And.right (fun _ => .nil) fun hp => hp.1.1.2)
      · rw [bind_map_left, bind_map_left]
        refine tries_scratch.bind fun scratch scratch' => ?_
        refine (h.tries_lowerPin fun hp => hp.1.1.1.1).bind fun result result' => ?_
        refine (h.tries_lowerPin fun hp => hp.1.1.1.1.1).bind fun index index' => ?_
        refine (tries_step (walks_compareIndex And.right (fun hp => hp.1.1.2) fun hp => hp.1.1.1.2)).bind
          fun jumps jumps' => ?_
        refine tries_step (h.walks_cases hfirst hothers (fun hp => hp.1.1.1.1.1.1.1) (fun hp => hp.1.1.1.1.1.1.2)
          (fun hp => hp.1.1.2) And.right fun hp => hp.1.1.1.1.1.2)

theorem Lowers.tries_lowerForLoop :
    C.Tries (C.Opens e) (cx.lowerForLoop lower e function) (cx'.lowerForLoop lower' e function)
      fun _ _ => True := by
  unfold lowerForLoop
  rw [env_eq C, pass_eq C]
  cases cx.pass with
  | setup =>
    refine h.tries_lowerChildren.seq fun _ _ => tries_callOperands.seq fun _ _ => ?_
    exact tries_pinOperand.seq fun _ _ => tries_pure fun _ => trivial
  | emit =>
    cases cx.env.catalog.find? function with
    | none => exact tries_throw
    | some found =>
      refine (tries_forM fun pin _ => ?_).seq fun _ _ => ?_
      · exact tries_requiredVar_bind fun var _ hvar _ _ => tries_step (h.child hvar id)
      refine tries_pinOperand.bind fun _ _ => tries_pinOperand.bind fun _ _ => ?_
      refine tries_pinOperand.bind fun _ _ => tries_callOperands.bind fun ⟨n, operands⟩ ⟨n', operands'⟩ => ?_
      refine tries_step (h.walks_emitLoop (fun hp => hp.1.1.1.1) (fun hp => hp.1.1.1.2) (fun hp => hp.1.1.2)
        (fun hp => hp.1.2) ?_)
      rintro ⟨-, rfl, hoperands⟩
      exact .execute hoperands

theorem Lowers.tries_lowerIterate :
    C.Tries (C.Opens e) (cx.lowerIterate lower e) (cx'.lowerIterate lower' e) fun _ _ => True := by
  unfold lowerIterate
  rw [pass_eq C]
  cases cx.pass with
  | setup =>
    refine h.tries_lowerChildren.seq fun _ _ => tries_forM fun _ _ => ?_
    exact tries_pinOperand.seq fun _ _ => tries_pure fun _ => trivial
  | emit =>
    refine (h.tries_lowerPin id).bind fun _ _ => (h.tries_lowerPin And.left).bind fun _ _ => ?_
    refine (h.tries_lowerPin fun hp => hp.1.1).bind fun _ _ => ?_
    refine (h.tries_lowerPin fun hp => hp.1.1.1).bind fun _ _ => ?_
    refine (h.tries_lowerPin fun hp => hp.1.1.1.1).bind fun _ _ => ?_
    refine (h.tries_lowerPin fun hp => hp.1.1.1.1.1).bind fun _ _ => ?_
    refine tries_step (h.walks_emitLoop (fun hp => hp.1.1.1.1.1.1) (fun hp => hp.1.1.2) (fun hp => hp.1.1.1.2)
      And.right ?_)
    rintro ⟨⟨⟨⟨⟨⟨-, harray⟩, helement⟩, hindex⟩, hcount⟩, hratio⟩, hproceed⟩
    exact .array (.cons harray (.cons helement (.cons hindex (.cons hcount (.cons hratio (.cons hproceed .nil))))))

theorem Lowers.walks_lowerEntry :
    C.Walks (C.Opens e) (cx.lowerEntry lower e) (cx'.lowerEntry lower' e) fun _ _ => True := by
  unfold lowerEntry
  rw [tree_eq C, pass_eq C]
  refine walks_lift_bind fun x _ => ?_
  cases cx.pass with
  | setup => exact h.walks_lowerChildren id
  | emit =>
    refine walks_lift_bind fun kind _ => ?_
    have hentry (name : String) : C.Walks (C.Opens e)
        (modify fun s => { s with code := s.code.addEntry name s.code.size })
        (modify fun s => { s with code := s.code.addEntry name s.code.size }) fun _ _ => True :=
      have hkeeps (cx : Context) : cx.Keeps (modify fun s => { s with code := s.code.addEntry name s.code.size }) :=
        keeps_modify fun s => { Context.Extends.refl s with }
      ⟨hkeeps cx, hkeeps cx', fun _ _ _ hrel _ => ⟨Lawful.addEntry hrel name, trivial⟩⟩
    refine (hentry _).seq fun _ _ => (h.walks_lowerChildren id).seq fun _ _ => ?_
    refine walks_lift_bind fun r _ => ?_
    cases r with
    | none => exact walks_emit fun _ => .exit
    | some _ => exact walks_pure fun _ => trivial

theorem Lowers.tries_lowerValue :
    C.Tries (C.Opens e) (cx.lowerValue lower e) (cx'.lowerValue lower' e) fun _ _ => True := by
  unfold lowerValue
  rw [tree_eq C, pass_eq C]
  refine h.tries_lowerChildren.seq fun _ _ => ?_
  cases cx.pass with
  | emit => exact tries_pure fun _ => trivial
  | setup =>
    refine tries_lift_bind fun pin _ => ?_
    split
    · exact tries_pure fun _ => trivial
    · refine tries_operandOf.bind fun _ _ => tries_lift_bind fun kind _ => ?_
      split
      · exact tries_watch And.right
      · exact tries_pure fun _ => trivial

theorem Lowers.tries_lowerTransfer :
    C.Tries (C.Opens e) (cx.lowerTransfer lower e) (cx'.lowerTransfer lower' e) fun _ _ => True := by
  unfold lowerTransfer
  rw [tree_eq C, pass_eq C]
  refine h.tries_lowerChildren.seq fun _ _ => tries_lift_bind fun x hx => ?_
  have hx : cx.tree.expr? e = some x := Checked.get_eq_ok.1 hx
  cases hsource : x.source with
  | none => exact tries_throw
  | some source => cases htarget : x.proxy with
    | none => exact tries_throw
    | some target =>
      refine tries_lift_bind fun execute _ => ?_
      have hread : C.Tries (C.Opens e) (cx.transferSource x source) (cx'.transferSource x source) C.twin := by
        unfold transferSource
        rw [tree_eq C]
        refine tries_lift_bind fun r _ => ?_
        cases r with
        | none => exact tries_value ⟨e, x, hx, .inr hsource⟩
        | some child => exact tries_operandOf
      split
      · exact tries_pure fun _ => trivial
      · refine hread.bind fun read read' => (tries_value ⟨e, x, hx, .inl htarget⟩).bind fun _ _ => ?_
        cases cx.pass with
        | setup => exact tries_pure fun _ => trivial
        | emit => exact tries_step (walks_copyValue (fun hp => hp.1.2) And.right)

theorem Lowers.tries_lowerCall :
    C.Tries (C.Opens e) (cx.lowerCall lower e) (cx'.lowerCall lower' e) fun _ _ => True := by
  unfold lowerCall
  rw [tree_eq C, pass_eq C]
  refine tries_lift_bind fun kind _ => ?_
  split
  · refine h.tries_lowerChildren.seq fun _ _ => ?_
    refine tries_callOperands.bind fun ⟨n, operands⟩ ⟨n', operands'⟩ => ?_
    cases cx.pass with
    | setup => exact tries_pure fun _ => trivial
    | emit =>
      refine tries_step (walks_emit ?_)
      rintro ⟨-, rfl, hoperands⟩
      exact .execute hoperands
  · exact h.tries_lowerForLoop
  · exact tries_lift_bind fun _ _ => tries_throw

theorem Lowers.tries_lowerArray :
    C.Tries (C.Opens e) (cx.lowerArray lower e) (cx'.lowerArray lower' e) fun _ _ => True := by
  unfold lowerArray
  rw [tree_eq C, pass_eq C]
  refine tries_lift_bind fun kind _ => ?_
  split
  · exact h.tries_lowerIterate
  · refine h.tries_lowerChildren.seq fun _ _ => (tries_mapM fun _ _ => tries_pinOperand).bind fun _ _ => ?_
    cases cx.pass with
    | setup => exact tries_pure fun _ => trivial
    | emit => exact tries_step (walks_emit fun hp => .array hp.2)
  · exact tries_lift_bind fun _ _ => tries_throw

theorem Lowers.tries_lowerExpr :
    C.Tries (C.known e) (cx.lowerExpr lower e) (cx'.lowerExpr lower' e) fun _ _ => True := by
  unfold lowerExpr
  rw [tree_eq C, pass_eq C]
  refine tries_lift_bind fun kind hkind => ?_
  obtain ⟨x, hx, hx'⟩ := Checked.bind_eq_ok.1 hkind
  have hx : cx.tree.expr? e = some x := Checked.get_eq_ok.1 hx
  have hx' : x.kind = kind := Except.ok.inj hx'
  have hopens (hne : kind ≠ .exit) (hknown : C.known e) : C.Opens e := opens_of_known hknown hx (hx' ▸ hne)
  cases kind with
  | block | noOp => exact h.tries_lowerChildren.of_imp (hopens (by simp))
  | entry => exact (tries_step h.walks_lowerEntry).of_imp (hopens (by simp))
  | call => exact h.tries_lowerCall.of_imp (hopens (by simp))
  | var | literal | externalVar => exact h.tries_lowerValue.of_imp (hopens (by simp))
  | assign | copy => exact h.tries_lowerTransfer.of_imp (hopens (by simp))
  | cachedValue =>
    refine (h.tries_lowerChildren.of_imp (hopens (by simp))).seq fun _ _ => ?_
    exact tries_operandOf.seq fun _ _ => tries_pure fun _ => trivial
  | branch => exact h.tries_lowerBranch.of_imp (hopens (by simp))
  | ifElse => exact h.tries_lowerIf.of_imp (hopens (by simp))
  | select => exact h.tries_lowerSelect.of_imp (hopens (by simp))
  | array => exact h.tries_lowerArray.of_imp (hopens (by simp))
  | exit =>
    cases cx.pass with
    | setup => exact tries_pure fun _ => trivial
    | emit => exact tries_step (walks_emit fun _ => .exit)

end Kinds

/-! ## The walk -/

omit [C.Lawful] in
theorem keeps_enter {stack : CallStack} : cx.Keeps (cx.enter stack) := by
  have hlocals : cx.Keeps (cx.initializeLocals stack) := fun _ =>
    grows_initializeLocals.mono fun _ _ h => h.1
  refine keeps_enterFrames.bind fun _ => hlocals.bind fun _ => ?_
  exact keeps_modify fun s => { Context.Extends.refl s with }

/-- What remains after an expression was tried: an error is noted, and the call stack goes back. -/
def settle (e : ExprId) (outer : CallStack) (r : Except LowerError Unit) : Step Unit := do
  match r with
  | .ok () => pure ()
  | .error error => fail e error
  modify fun s => { s with callStack := outer }

omit [C.Lawful] in
theorem keeps_settle : cx.Keeps (settle e outer r) := by
  have hback : cx.Keeps (modify fun s => { s with callStack := outer }) :=
    keeps_modify fun s => { Context.Extends.refl s with }
  cases r with
  | ok _ => exact hback
  | error error =>
    have hfail : cx.Keeps (fail e error) := fun _ => (grows_fail cx).mono fun _ _ h => h.1
    exact hfail.bind fun _ => hback

/-- An expression that is settled with an error has failed. -/
theorem failed_of_settle {error : LowerError} {u' : State} {r : Unit}
    (h : settle e outer (.error error) u = .ok (r, u')) : u'.failed ≠ [] := by
  have hends : Step.Ends (fun _ => True) u (settle e outer (.error error)) fun _ u' => e ∈ u'.failed := by
    refine Step.ends_bind.2 (Step.ends_bind.2 (Step.ends_modify.2 ?_))
    split
    · exact List.mem_cons_self
    · exact List.mem_cons_self
  have hmem := Checked.Ends.of_ok hends h
  exact List.ne_nil_of_mem hmem

omit [C.Lawful] in
theorem lowerUnder_apply (u : State) : cx.lowerUnder lower e u = cx.tree.expr e >>= fun x =>
    (cx.enter ((x.proxy.map Proxy.callStack).getD u.callStack) >>= fun _ =>
      (cx.lowerExpr lower e).run >>= settle e u.callStack) u := by
  unfold lowerUnder
  cases hx : cx.tree.expr e with
  | error f => rfl
  | ok x =>
    simp only [enter, bind_assoc]
    rfl

omit [C.Lawful] in
theorem keeps_lowerUnder (h : cx.Tries (cx.lowerExpr lower e)) : cx.Keeps (cx.lowerUnder lower e) := by
  intro u
  unfold Step.Ends
  rw [lowerUnder_apply]
  cases cx.tree.expr e with
  | error f => trivial
  | ok x =>
    have hkeeps : cx.Keeps (cx.enter ((x.proxy.map Proxy.callStack).getD u.callStack) >>= fun _ =>
        (cx.lowerExpr lower e).run >>= settle e u.callStack) :=
      keeps_enter.bind fun _ => h.keeps_run.bind fun _ => keeps_settle
    exact hkeeps u

/-- Settling is coupled. If the attempts do not agree, no good state follows. -/
theorem meets_settle {u1 s s1 : State} {r' : Except LowerError Unit} (hrel : C.rel u s) (hu : cx.Extends u u1)
    (hs : cx'.Extends s s1) (h : C.Agrees (fun _ _ => True) r u1 r' s1) :
    C.Meets (fun _ u _ s => C.rel u s ∧ True) (settle e u.callStack r u1) (settle e u.callStack r' s1) := by
  have hleave {u2 s2 : State} (hu2 : cx.Extends u u2) (hs2 : cx'.Extends s s2) (hrel2 : C.rel u2 s2) :
      C.rel { u2 with callStack := u.callStack } { s2 with callStack := u.callStack } := by
    have hleft := Lawful.leave hrel hu2 hs2 hrel2
    rwa [← Lawful.callStack hrel] at hleft
  by_cases hstrict : C.strict
  · cases r with
    | ok _ => cases r' with
      | ok _ => exact fun _ => ⟨hleave hu hs h.1, trivial⟩
      | error e' => exact absurd hstrict h
    | error error => cases r' with
      | ok _ => exact absurd hstrict h
      | error error' =>
        obtain ⟨hrel1, rfl⟩ := h hstrict
        have hfail (cx : Context) : cx.Keeps (fail e error) := fun _ =>
          (grows_fail cx).mono fun _ _ h => h.1
        have hback (cx : Context) : cx.Keeps (modify fun s => { s with callStack := u.callStack }) :=
          keeps_modify fun s => { Context.Extends.refl s with }
        refine ((Lawful.fail e error hstrict hrel1).extends (hfail cx) (hfail cx')).bind ?_ (fun _ => hback cx)
          fun _ => hback cx'
        rintro _ u2 _ s2 ⟨hrel2, hu2, hs2⟩ -
        exact ⟨hleave (hu.trans hu2) (hs.trans hs2) hrel2.1, trivial⟩
  · refine meets_of_not_strict hstrict fun _ u2 _ s2 hu2 hs2 hgood => ?_
    obtain ⟨hfailed, hfailed'⟩ := Lawful.failed_of_good hstrict hgood
    cases r with
    | error error => exact absurd hfailed (failed_of_settle hu2)
    | ok _ => cases r' with
      | error error' => exact absurd hfailed' (failed_of_settle hs2)
      | ok _ =>
        cases hu2
        cases hs2
        exact ⟨hleave hu hs h.1, trivial⟩

theorem Lowers.walks_lowerUnder (h : C.Lowers lower lower') :
    C.Walks (C.known e) (cx.lowerUnder lower e) (cx'.lowerUnder lower' e) fun _ _ => True := by
  have hexpr := h.tries_lowerExpr (e := e)
  refine ⟨keeps_lowerUnder hexpr.left, keeps_lowerUnder hexpr.right, fun hknown u s hrel => ?_⟩
  rw [lowerUnder_apply, lowerUnder_apply, tree_eq C]
  cases hx : cx.tree.expr e with
  | error f => exact fun _ => rfl
  | ok x =>
    have hx : cx.tree.expr? e = some x := Checked.get_eq_ok.1 hx
    have hrest (cx : Context) {lower : ExprId → Step Unit} (h : cx.Tries (cx.lowerExpr lower e)) :
        cx.Keeps ((cx.lowerExpr lower e).run >>= settle e u.callStack) := h.keeps_run.bind fun _ => keeps_settle
    rw [← Lawful.callStack hrel, Checked.ok_bind, Checked.ok_bind]
    refine ((Lawful.enter hknown hx hrel).extends keeps_enter keeps_enter).bind ?_
      (fun _ => hrest cx hexpr.left) fun _ => hrest cx' hexpr.right
    rintro _ u1 _ s1 ⟨hrel1, hu1, hs1⟩
    refine ((hexpr.attempts hknown hrel1).extends hexpr.left.keeps_run hexpr.right.keeps_run).bind ?_
      (fun _ => keeps_settle) fun _ => keeps_settle
    rintro r u2 r' s2 ⟨hagrees, hu2, hs2⟩
    exact meets_settle hrel (hu1.trans hu2) (hs1.trans hs2) hagrees

omit [C.Lawful] in
theorem keeps_recordSpan {start : Nat} : cx.Keeps (recordSpan e start) :=
  keeps_modify fun s => { Context.Extends.refl s with }

theorem Lowers.steps_lowerOnce (h : C.Lowers lower lower') (hknown : C.known e) :
    C.Steps (cx.lowerOnce lower e) (cx'.lowerOnce lower' e) fun _ _ => True := by
  intro u s hrel
  show C.Meets _ ((if e ∈ u.failed ∨ e ∈ u.visited then _ else _ : Step Unit) u)
    ((if e ∈ s.failed ∨ e ∈ s.visited then _ else _ : Step Unit) s)
  have hiff : e ∈ s.failed ∨ e ∈ s.visited ↔ e ∈ u.failed ∨ e ∈ u.visited :=
    or_congr (Lawful.failed hrel e).symm (Lawful.visited hrel e).symm
  by_cases hmet : e ∈ u.failed ∨ e ∈ u.visited
  · rw [if_pos hmet, if_pos (hiff.2 hmet)]
    exact fun _ => ⟨hrel, trivial⟩
  · rw [if_neg hmet, if_neg (mt hiff.1 hmet)]
    show C.Meets _ ((cx.lowerUnder lower e >>= fun _ => recordSpan e u.code.size) _)
      ((cx'.lowerUnder lower' e >>= fun _ => recordSpan e s.code.size) _)
    refine (h.walks_lowerUnder.steps hknown (Lawful.visit hknown hrel)).bind ?_ (fun _ => keeps_recordSpan)
      fun _ => keeps_recordSpan
    intro _ u1 _ s1 hrel1 _
    exact ⟨Lawful.span hrel1.1 e (Lawful.addr_size hrel), trivial⟩

theorem lowers_lowerWithin (depth : Nat) : C.Lowers (cx.lowerWithin depth) (cx'.lowerWithin depth) := by
  induction depth with
  | zero => exact fun e => ⟨fun _ => trivial, fun _ => trivial, fun _ _ _ _ _ => rfl⟩
  | succ depth ih =>
    exact fun e => ⟨(comes_lowerWithin _).keeps e, (comes_lowerWithin _).keeps e, ih.steps_lowerOnce⟩

/-- The walks over all roots are coupled, if all roots are known. -/
theorem walks_roots (h : ∀ e ∈ cx.tree.roots, C.known e) :
    C.Walks True (cx.tree.roots.forM cx.lower) (cx'.tree.roots.forM cx'.lower) fun _ _ => True := by
  unfold lower
  rw [tree_eq C]
  exact walks_forM fun e he => (lowers_lowerWithin _ e).of_imp fun _ => h e he

end NodeGraph.Lowering.Coupling
