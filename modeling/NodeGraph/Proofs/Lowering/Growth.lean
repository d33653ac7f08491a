import NodeGraph.Proofs.Lowering.Setup

/-!
# Lowering keeps what is there

Whatever a tree looks like, lowering only adds: `Extends` relates the state before a function to the
state after it. An operand that is new in it is where the value of its expression is kept, and in the
setup pass an expression that is new among those met has all its children met and its call sites
prepared. The relation is reflexive and transitive, so that lowering extends the state is an account of the
walk (`growing`), and the functions of the walk need no argument of their own.
-/
namespace NodeGraph

/-! ## The shape of code -/

variable {offset address : Nat}

namespace Instruction

/-- An instruction without the distance a jump goes. -/
def shape : Instruction → Instruction
  | jumpForward _ => jumpForward 0
  | jumpBackward _ => jumpBackward 0
  | jumpIf condition _ expected => jumpIf condition 0 expected
  | i => i

theorem shape_withOffset? {i j : Instruction} (h : i.withOffset? offset = some j) : j.shape = i.shape := by
  cases i <;> simp only [withOffset?, Option.some.injEq, reduceCtorEq] at h <;> subst h <;> rfl

end Instruction

namespace Bytecode

/-- The instructions of the code without the distances of jumps. -/
def shape (b : Bytecode) : List Instruction := b.instructions.map Instruction.shape

theorem shape_push (b : Bytecode) (i : Instruction) (stack : Option CallStack) :
    (b.push i stack).shape = b.shape ++ [i.shape] := by
  simp [shape, push]

theorem shape_setOffset {b b' : Bytecode} (h : b.setOffset address offset = .ok b') : b'.shape = b.shape := by
  unfold setOffset at h
  split at h
  · next jump hjump =>
    cases h
    obtain ⟨i, hi, hij⟩ := Option.bind_eq_some_iff.1 hjump
    have hlt := (List.getElem?_eq_some_iff.1 hi).1
    rw [shape, shape, List.map_set, Instruction.shape_withOffset? hij]
    refine List.ext_getElem? fun n => ?_
    by_cases hn : n = address
    · subst hn
      rw [List.getElem?_set_self (by simpa using hlt), List.getElem?_map, hi]
      rfl
    · rw [List.getElem?_set_ne (Ne.symm hn)]
  · cases h

end Bytecode

namespace Lowering

/-! ## The relation -/

variable {cx : Context} {s : State}

/-- The walk has come to an expression, in this pass or in vain before. -/
def State.Met (s : State) (e : ExprId) : Prop := e ∈ s.visited ∨ e ∈ s.failed

namespace Context

variable (cx : Context) {callSite stack : CallStack} {a b : Storage} {v : LocalVariable} {function : String}
  {n : Nat}

/-- The operand is where an expression of that kind keeps the value of a pin. -/
def KeptAt (s : Storage) (kind : ExprKind) (p : Proxy) (o : Operand) : Prop :=
  match kind with
  | .var => cx.Located s p o
  | .literal => ∃ site, cx.constantSite p = .ok (some site) ∧ site.Holds s o
  | .externalVar => ∃ site, cx.externalSite p = .ok (some site) ∧ site.Holds s o
  | _ => True

/-- The operand of a value expression is where the value of its pin is kept. -/
def Placed (s : Storage) (entry : ExprId × Operand) : Prop :=
  ∀ x, cx.tree.expr? entry.1 = some x → x.kind.isValue = true →
    ∃ p, x.proxy = some p ∧ cx.KeptAt s x.kind p entry.2

/-- Both registers of a local at a call site are there. -/
def LocalKept (s : Storage) (callSite : CallStack) (function : String) (v : LocalVariable) : Prop :=
  ∃ key o source, localKey cx.tree.graph callSite v.name = .ok key ∧ s.keyed.lookup key = some o ∧
    s.keyed.lookup (localDefaultKey function v.name) = some source

/-- Both registers of every local of a call site are there. -/
def LocalsKept (s : Storage) (callSite : CallStack) : Prop :=
  ∀ function, cx.tree.innermostFunction callSite = .ok (some function) →
    ∀ v ∈ function.locals, cx.LocalKept s callSite function.name v

/-- The children of an expression have been met. An exit does without. -/
def ChildrenMet (s : State) (e : ExprId) : Prop :=
  ∀ x, cx.tree.expr? e = some x → x.kind ≠ .exit → ∀ c ∈ x.children, s.Met c

/-- An expression failed, or its children have been met and its call sites are prepared. -/
def Covered (s : State) (e : ExprId) : Prop :=
  e ∈ s.failed ∨ cx.ChildrenMet s e ∧ ∀ x p, cx.tree.expr? e = some x → x.proxy = some p →
    ∀ site ∈ p.callStack.sites, site ∈ s.prepared

/-- What is in `s` is in `s'`, and what is new in `s'` is in order. -/
structure Extends (s s' : State) : Prop where
  storage : s.storage.Extends s'.storage
  registers : s.storage.Adds cx.env.types cx.tree cx.sharing s'.storage
  operands : ∀ entry ∈ s'.operands, entry ∈ s.operands ∨ cx.Placed s'.storage entry
  failed : s.failed ⊆ s'.failed
  errors : s.report.errors ≤ s'.report.errors
  initialized : s.initialized ⊆ s'.initialized
  prepared : s.prepared ⊆ s'.prepared
  locals : ∀ site ∈ s'.prepared, site ∈ s.prepared ∨ 0 < s'.report.errors ∨ cx.LocalsKept s'.storage site
  visited : s.visited ⊆ s'.visited
  covered : cx.pass = .setup → ∀ e ∈ s'.visited, e ∈ s.visited ∨ cx.Covered s' e
  shape : s.code.shape <+: s'.code.shape

variable {cx} {s' s'' : State}

theorem KeptAt.mono {kind : ExprKind} {p : Proxy} {o : Operand} (h : cx.KeptAt a kind p o) (hle : a.Extends b) :
    cx.KeptAt b kind p o := by
  cases kind with
  | var => exact Located.mono h hle
  | literal | externalVar =>
    obtain ⟨site, hsite, ho⟩ := h
    exact ⟨site, hsite, ho.mono hle⟩
  | _ => trivial

theorem Placed.mono {entry : ExprId × Operand} (h : cx.Placed a entry) (hle : a.Extends b) : cx.Placed b entry := by
  intro x hx hvalue
  obtain ⟨p, hp, ho⟩ := h x hx hvalue
  exact ⟨p, hp, ho.mono hle⟩

theorem LocalKept.mono (h : cx.LocalKept a callSite function v) (hle : a.Extends b) :
    cx.LocalKept b callSite function v := by
  obtain ⟨key, o, source, hkey, ho, hsource⟩ := h
  exact ⟨key, o, source, hkey, hle.keyed ho, hle.keyed hsource⟩

theorem LocalsKept.mono (h : cx.LocalsKept a callSite) (hle : a.Extends b) : cx.LocalsKept b callSite :=
  fun function hf v hv => (h function hf v hv).mono hle

theorem Extends.met {e : ExprId} (h : cx.Extends s s') (he : s.Met e) : s'.Met e :=
  he.imp (h.visited ·) (h.failed ·)

theorem ChildrenMet.mono {e : ExprId} (h : cx.ChildrenMet s e) (hle : cx.Extends s s') :
    cx.ChildrenMet s' e :=
  fun x hx hkind c hc => hle.met (h x hx hkind c hc)

theorem Covered.mono {e : ExprId} (h : cx.Covered s e) (hle : cx.Extends s s') : cx.Covered s' e :=
  h.imp (hle.failed ·) fun h => ⟨h.1.mono hle, fun x p hx hp site hsite => hle.prepared (h.2 x p hx hp site hsite)⟩

theorem Extends.refl (s : State) : cx.Extends s s where
  storage := .refl _
  registers := .refl _
  operands _ h := .inl h
  failed _ h := h
  errors := Nat.le_refl _
  initialized _ h := h
  prepared _ h := h
  locals _ h := .inl h
  visited _ h := h
  covered _ _ h := .inl h
  shape := List.prefix_rfl

theorem Extends.trans (h : cx.Extends s s') (h' : cx.Extends s' s'') : cx.Extends s s'' where
  storage := h.storage.trans h'.storage
  registers := h.registers.trans h'.registers
  operands entry hentry := by
    rcases h'.operands entry hentry with hentry | hplaced
    · exact (h.operands entry hentry).imp_right (.mono · h'.storage)
    · exact .inr hplaced
  failed := List.Subset.trans h.failed h'.failed
  errors := Nat.le_trans h.errors h'.errors
  initialized := List.Subset.trans h.initialized h'.initialized
  prepared := List.Subset.trans h.prepared h'.prepared
  locals site hsite := by
    rcases h'.locals site hsite with hsite | hnew
    · rcases h.locals site hsite with hsite | herror | hkept
      · exact .inl hsite
      · exact .inr (.inl (Nat.lt_of_lt_of_le herror h'.errors))
      · exact .inr (.inr (hkept.mono h'.storage))
    · exact .inr hnew
  visited := List.Subset.trans h.visited h'.visited
  covered hpass e he := by
    rcases h'.covered hpass e he with he | hnew
    · exact (h.covered hpass e he).imp_right (.mono · h')
    · exact .inr hnew
  shape := h.shape.trans h'.shape

/-! ## Keeping and trying -/

variable {α β : Type} {P : Storage → α → Prop}

variable (cx) in
/-- However `m` ends, the state is extended. -/
def Keeps (m : Step α) : Prop := ∀ s, Step.Ends (fun _ => True) s m fun _ s' => cx.Extends s s'

variable (cx) in
/-- However `m` ends, with a result or an error, the state is extended. -/
def Tries (m : Attempt α) : Prop :=
  ∀ s, Attempt.Ends (fun _ => True) s m (fun _ s' => cx.Extends s s') fun _ s' => cx.Extends s s'

section Rules

variable {m : Step α} {k : α → Step β} {a : Attempt α} {f : α → Attempt β} {x : Checked α}

@[grind ←] theorem keeps_pure {x : α} : cx.Keeps (pure x) := fun s => .refl s

@[grind ←] theorem keeps_get : cx.Keeps get := fun s => .refl s

@[grind ←] theorem keeps_lift : cx.Keeps (liftM x) := by
  intro s
  cases x
  · trivial
  · exact .refl s

theorem keeps_modify {g : State → State} (h : ∀ s, cx.Extends s (g s)) : cx.Keeps (modify g) := h

@[grind ←] theorem Keeps.bind (hm : cx.Keeps m) (hk : ∀ x, cx.Keeps (k x)) : cx.Keeps (m >>= k) := by
  intro s
  refine Step.ends_bind.2 ((hm s).mono fun x s1 h1 => ?_)
  exact (hk x s1).mono fun _ _ h2 => h1.trans h2

@[grind ←] theorem keeps_forM {l : List α} {k : α → Step PUnit} (h : ∀ x ∈ l, cx.Keeps (k x)) :
    cx.Keeps (l.forM k) := by
  intro s
  refine Step.ends_forM (fun _ s' => cx.Extends s s') (.refl s) ?_
  rintro done x rest rfl s1 h1
  exact (h x (by simp) s1).mono fun _ _ h2 => h1.trans h2

@[grind ←] theorem tries_pure {x : α} : cx.Tries (pure x) := fun s => .refl s

@[grind ←] theorem tries_throw {e : LowerError} : cx.Tries (throw e : Attempt α) := fun s => .refl s

@[grind ←] theorem tries_step (h : cx.Keeps m) : cx.Tries (liftM m) := fun s => Attempt.ends_step.2 (h s)

@[grind ←] theorem tries_lift : cx.Tries (liftM x) := tries_step keeps_lift

@[grind ←] theorem Tries.bind (ha : cx.Tries a) (hf : ∀ x, cx.Tries (f x)) : cx.Tries (a >>= f) := by
  intro s
  refine Attempt.ends_bind.2 ((ha s).mono (fun x s1 h1 => ?_) fun _ _ h => h)
  exact (hf x s1).mono (fun _ _ h2 => h1.trans h2) fun _ _ h2 => h1.trans h2

theorem Tries.keeps_run (ha : cx.Tries a) : cx.Keeps a.run := fun s =>
  Step.Ends.mono (ha s) fun r _ hr => by cases r <;> exact hr

theorem tries_lift_bind (h : ∀ y, x = .ok y → cx.Tries (f y)) :
    cx.Tries (liftM x >>= f) := fun s => Attempt.ends_lift_bind fun y hy => h y hy s

end Rules

/-! ## Operands -/

variable {p : Proxy} {e : ExprId} {o : Operand}

theorem extends_storage {storage : Storage} (h : cx.Enlarges s.storage storage) :
    cx.Extends s { s with storage := storage } :=
  have hself : cx.Extends s s := .refl s
  { hself with
    storage := h.keeps
    registers := h.adds
    operands := fun _ h => .inl h
    locals := fun _ h => .inl h
    covered := fun _ _ h => .inl h }

variable (cx) in
/-- Finding extends only the storage, and what it finds can be used. -/
theorem ends_of_finds {a : Attempt α} (h : cx.Finds a P) (s : State) :
    Attempt.Ends (fun _ => True) s a (fun x s' => cx.Extends s s' ∧ P s'.storage x)
      fun _ s' => cx.Extends s s' := by
  have hext (s' : State) (h : cx.Enlarges s.storage s'.storage ∧ s' = { s with storage := s'.storage }) :
      cx.Extends s s' := by
    rw [h.2]
    exact extends_storage h.1
  exact (h.ends s).mono (fun x s' h => ⟨hext s' h.1, h.2⟩) fun _ s' h => hext s' h

theorem Finds.tries {a : Attempt α} (h : cx.Finds a P) : cx.Tries a := fun s =>
  (ends_of_finds cx h s).mono (fun _ _ h => h.1) fun _ _ h => h

@[grind ←] theorem keeps_publish : cx.Keeps (cx.publish p o) :=
  keeps_lift.bind fun _ => keeps_modify fun s => { Extends.refl s with }

/-- An operand is kept if it is where the value of the expression is. -/
theorem tries_memoized {find : Attempt Operand} (h : ∀ s, Attempt.Ends (fun _ => True) s find
      (fun o s' => cx.Extends s s' ∧ cx.Placed s'.storage (e, o)) fun _ s' => cx.Extends s s') :
    cx.Tries (memoized e find) := by
  intro s
  refine Attempt.ends_get_bind.2 ?_
  split
  · exact .refl s
  · split
    · exact .refl s
    · refine Attempt.ends_bind.2 ((h s).mono (fun o s1 ⟨h1, ho⟩ => ?_) fun _ _ h => h)
      refine h1.trans { Extends.refl s1 with operands := fun entry hentry => ?_ }
      rcases List.mem_cons.1 hentry with rfl | hentry
      · exact .inr ho
      · exact .inl hentry

@[grind ←] theorem tries_pinExprOperand : cx.Tries (cx.pinExprOperand e) := by
  unfold pinExprOperand
  refine tries_lift_bind fun x hx => tries_memoized fun s => ?_
  have hx : cx.tree.expr? e = some x := Checked.get_eq_ok.1 hx
  have hplaced {p : Proxy} {s : Storage} {o : Operand} (hp : x.proxy = some p)
      (ho : cx.KeptAt s x.kind p o) : cx.Placed s (e, o) := by
    intro x' hx' _
    cases hx.symm.trans hx'
    exact ⟨p, hp, ho⟩
  -- Publishing an operand keeps what is known of it.
  have hpublish {p : Proxy} {find : Attempt Operand} {P : Storage → Operand → Prop} (hfind : cx.Finds find P)
      (hP : ∀ {s o}, P s o → cx.Placed s (e, o)) :
      Attempt.Ends (fun _ => True) s (do let o ← find; cx.publish p o; return o)
        (fun o s' => cx.Extends s s' ∧ cx.Placed s'.storage (e, o)) fun _ s' => cx.Extends s s' := by
    refine Attempt.ends_bind.2 ((ends_of_finds cx hfind s).mono (fun o s1 ⟨h1, ho⟩ => ?_) fun _ _ h => h)
    refine Attempt.ends_bind.2 (Attempt.ends_step.2 ((keeps_publish s1).mono fun _ s2 h2 => ?_))
    exact ⟨h1.trans h2, (hP ho).mono h2.storage⟩
  split
  · next hkind hp =>
    exact (ends_of_finds cx finds_constantOperand s).mono
      (fun o s' h => ⟨h.1, hplaced hp (by rw [hkind]; exact h.2)⟩) fun _ _ h => h
  · next hkind hp => exact hpublish finds_externalOperand fun ho => hplaced hp (by rw [hkind]; exact ho)
  · next hkind hp => exact hpublish finds_valueOperand fun ho => hplaced hp (by rw [hkind]; exact ho)
  · split <;> exact .refl s
  · exact .refl s

@[grind ←] theorem tries_operandOf : cx.Tries (cx.operandOf e) := by
  unfold operandOf
  refine tries_lift_bind fun kind hkind => ?_
  split
  · obtain ⟨x, hx, hcached⟩ := Checked.bind_eq_ok.1 hkind
    have hcached : x.kind = .cachedValue := Except.ok.inj hcached
    refine tries_memoized fun s => ?_
    refine Attempt.Ends.mono ((?first : cx.Tries _) s) (fun o s' h => ⟨h, fun x' hx' hvalue => ?_⟩) fun _ _ h => h
    case first => grind
    have hx : cx.tree.expr? e = some x := Checked.get_eq_ok.1 hx
    cases hx.symm.trans hx'
    rw [hcached] at hvalue
    cases hvalue
  · exact tries_pinExprOperand

@[grind ←] theorem tries_watch : cx.Tries (cx.watch e o) := by
  unfold watch
  refine tries_lift.bind fun x => ?_
  split
  · exact tries_pure
  · refine tries_lift.bind fun path => ?_
    split
    · refine (Finds.tries finds_watchOperand).bind fun mirror => ?_
      exact fun s => { Extends.refl s with }
    · exact tries_pure

/-! ## Emission -/

theorem extends_setOffset {code : Bytecode} (h : s.code.setOffset address offset = .ok code) :
    cx.Extends s { s with code := code } :=
  { Extends.refl s with shape := (Bytecode.shape_setOffset h).symm ▸ List.prefix_rfl }

theorem extends_warning (subject : Subject) (message : String) :
    cx.Extends s { s with report := s.report.warning cx.options subject message } := by
  have herrors : (s.report.warning cx.options subject message).errors = s.report.errors := by
    unfold Report.warning
    split <;> rfl
  exact { Extends.refl s with errors := Nat.le_of_eq herrors.symm, locals := fun _ h => .inl h }

/-- Lowering extends the state, at whatever price. -/
def growing (cx : Context) : Account where
  moves _ _ s s' := cx.Extends s s'
  lowers _ s s' := cx.Extends s s'

theorem growing_emits : (growing cx).Emits cx where
  refl _ s := .refl s
  trans h h' := h.trans h'
  of_lowers h := h
  warning _ _ subject message := extends_warning subject message
  push {_ s i _} stack _ _ :=
    { Extends.refl s with shape := by rw [Bytecode.shape_push]; exact List.prefix_append _ _ }
  land _ hcode := extends_setOffset hcode

theorem pays_of_tries {a : Attempt α} (h : cx.Tries a) : (growing cx).Tries e n a := fun s _ =>
  (h s).mono (fun _ _ h => h) fun _ _ h => ⟨h, trivial⟩

theorem keeps_of_pays {m : Step α} (h : (growing cx).Emits cx → (growing cx).Pays 0 n m) : cx.Keeps m := fun s =>
  h growing_emits s trivial

@[grind ←] theorem keeps_emitUnder (stack : CallStack) (i : Instruction) : cx.Keeps (cx.emitUnder stack i) :=
  keeps_of_pays (·.pays_emitUnder stack i)

@[grind ←] theorem keeps_emit (i : Instruction) : cx.Keeps (cx.emit i) := keeps_of_pays (·.pays_emit i)

@[grind ←] theorem keeps_here : cx.Keeps here := keeps_of_pays (·.pays_here)

@[grind ←] theorem keeps_reserve (jump : Instruction) : cx.Keeps (cx.reserve jump) :=
  keeps_of_pays (·.pays_reserve jump)

@[grind ←] theorem keeps_land (address : Nat) : cx.Keeps (land address) := fun _ =>
  Step.ends_get_bind.2 (Step.ends_lift_bind fun _ hcode => extends_setOffset hcode)

theorem keeps_copyValue {source target : Operand} : cx.Keeps (cx.copyValue source target) :=
  keeps_of_pays (·.pays_copyValue source target)

theorem keeps_compareIndex {index scratch : Operand} {labels : List Operand} :
    cx.Keeps (cx.compareIndex index scratch labels) := keeps_of_pays (·.pays_compareIndex labels)

theorem keeps_emitCases {arms : List (Option Nat × Step Unit)} (h : ∀ arm ∈ arms, cx.Keeps arm.2) :
    cx.Keeps (cx.emitCases arms) := by
  have hland (jump : Option Nat) : cx.Keeps (jump.forM land) := by
    cases jump
    · exact keeps_pure
    · exact keeps_land _
  fun_induction emitCases cx arms with
  | case1 => exact keeps_pure
  | case2 jump body =>
    have hbody : cx.Keeps body := h (jump, body) (by simp)
    exact (hland jump).bind fun _ => hbody
  | case3 jump body rest _ ih =>
    have hbody : cx.Keeps body := h (jump, body) (by simp)
    have hrest := ih fun arm harm => h arm (by simp [harm])
    grind

/-! ## Reports, locals and arguments -/

theorem keeps_reportWarning (subject : Subject) (message : String) : cx.Keeps (cx.reportWarning subject message) :=
  keeps_modify fun _ => extends_warning subject message

theorem extends_error (subject : Subject) (message : String) :
    cx.Extends s { s with report := s.report.error subject message } :=
  { Extends.refl s with
    errors := Nat.le_succ _
    locals := fun _ h => .inl h }

theorem grows_prepareLocal {function : FunctionDefinition} {site : NodeId}
    (hv : cx.tree.DeclaresAt callSite function v) :
    Step.Ends (fun _ => True) s
      (do match ← (cx.localOperand callSite function.name v).run with
          | .ok _ => return ()
          | .error error => reportError (.node site) error.message)
      fun _ s' => cx.Extends s s' ∧ (0 < s'.report.errors ∨ cx.LocalKept s'.storage callSite function.name v) := by
  have hfinds : cx.Finds (cx.localOperand callSite function.name v)
      fun s _ => cx.LocalKept s callSite function.name v :=
    (finds_localOperand hv).mono fun {_ o} ⟨key, source, hkey, ho, hsource⟩ => ⟨key, o, source, hkey, ho, hsource⟩
  refine Step.ends_bind.2 (Step.Ends.mono (ends_of_finds cx hfinds s) fun r s1 h1 => ?_)
  cases r with
  | ok o => exact ⟨h1.1, .inr h1.2⟩
  | error error => exact ⟨Extends.trans h1 (extends_error _ _), .inl (Nat.succ_pos _)⟩

/-- The registers of the locals are there, or the reason is reported. -/
theorem grows_prepareLocals :
    Step.Ends (fun _ => True) s (cx.prepareLocals callSite) fun _ s' =>
      cx.Extends s s' ∧ (0 < s'.report.errors ∨ cx.LocalsKept s'.storage callSite) := by
  unfold prepareLocals
  refine Step.ends_lift_bind fun r hf => ?_
  cases hsite : callSite.innermost with
  | none =>
    refine ⟨.refl s, .inr fun function hfunction => ?_⟩
    rw [Tree.innermostFunction, hsite] at hfunction
    cases hfunction
  | some site => cases r with
    | none =>
      refine ⟨.refl s, .inr fun function hfunction => ?_⟩
      rw [hf] at hfunction
      cases hfunction
    | some function =>
      refine (Step.ends_forM (fun done s' => cx.Extends s s' ∧
        (0 < s'.report.errors ∨ ∀ v ∈ done, cx.LocalKept s'.storage callSite function.name v))
        ⟨.refl s, .inr (by simp)⟩ ?_).mono ?_
      · rintro done v rest hlocals s1 ⟨h1, hdone⟩
        have hv : cx.tree.DeclaresAt callSite function v := ⟨hf, by simp [hlocals]⟩
        refine (grows_prepareLocal hv).mono fun _ s2 ⟨h2, hnew⟩ => ⟨h1.trans h2, ?_⟩
        rcases hdone with herror | hdone
        · exact .inl (Nat.lt_of_lt_of_le herror h2.errors)
        · refine hnew.imp_right fun hnew v' hv' => ?_
          rcases List.mem_append.1 hv' with hv' | hv'
          · exact (hdone v' hv').mono h2.storage
          · rw [List.mem_singleton.1 hv']
            exact hnew
      · rintro _ s' ⟨hs', hkept⟩
        refine ⟨hs', hkept.imp_right fun hkept function' hfunction' => ?_⟩
        rw [hf] at hfunction'
        cases hfunction'
        exact hkept

/-- The storage grew, the report may have changed, and nothing else. -/
def Stored (s s' : State) : Prop :=
  s.storage.Extends s'.storage ∧ s' = { s with storage := s'.storage, report := s'.report }

theorem Stored.trans (h : Stored s s') (h' : Stored s' s'') : Stored s s'' := by
  refine ⟨h.1.trans h'.1, ?_⟩
  rw [h'.2, h.2]

theorem stored_of_finds {a : Attempt α} (h : cx.Finds a P) (s : State) :
    Step.Ends (fun _ => True) s a.run fun _ s' => Stored s s' := by
  have hfound := h.found s
  unfold Attempt.Ends Step.Ends Checked.Ends at hfound
  unfold Step.Ends Checked.Ends
  cases hrun : a.run s with
  | error f => trivial
  | ok r =>
    obtain ⟨r, s'⟩ := r
    have hs' : s' = { s with storage := s'.storage, report := s'.report } := by
      rw [h.framed.eq_of_run hrun]
    rw [hrun] at hfound
    cases r with
    | ok x => exact ⟨hfound.1.keeps, hs'⟩
    | error e => exact ⟨hfound.keeps, hs'⟩

theorem stored_prepareLocals :
    Step.Ends (fun _ => True) s (cx.prepareLocals callSite) fun _ s' => Stored s s' := by
  unfold prepareLocals
  refine Step.ends_lift_bind fun r hf => ?_
  cases callSite.innermost with
  | none => exact ⟨.refl _, rfl⟩
  | some site => cases r with
    | none => exact ⟨.refl _, rfl⟩
    | some function =>
      refine Step.ends_forM (fun _ s' => Stored s s') ⟨.refl _, rfl⟩ ?_
      rintro done v rest hlocals s1 h1
      have hv : cx.tree.DeclaresAt callSite function v := ⟨hf, by simp [hlocals]⟩
      refine Step.ends_bind.2 ((stored_of_finds (finds_localOperand hv) s1).mono fun r s2 h2 => ?_)
      cases r with
      | ok o => exact h1.trans h2
      | error error => exact (h1.trans h2).trans ⟨.refl _, rfl⟩

theorem keeps_emitInitializer : cx.Keeps (cx.emitInitializer callSite function v) := by
  refine keeps_lift.bind fun key => keeps_get.bind fun s => ?_
  dsimp only
  split
  · exact keeps_emitUnder _ _
  · exact keeps_pure

theorem keeps_recordInitializers {start : Nat} : cx.Keeps (recordInitializers callSite start) :=
  keeps_modify fun s => { Extends.refl s with }

/-- A call site is prepared in the setup pass. -/
theorem grows_initializeSite :
    Step.Ends (fun _ => True) s (cx.initializeSite callSite) fun _ s' =>
      cx.Extends s s' ∧ (cx.pass = .setup → callSite ∈ s'.prepared) := by
  unfold initializeSite
  refine Step.ends_get_bind.2 ?_
  split
  · split
    · next hmem => exact ⟨.refl s, fun _ => hmem⟩
    · refine Step.ends_bind.2 (Step.ends_set.2 (grows_prepareLocals.mono ?_))
      rintro _ s' ⟨hs', hkept⟩
      have hmem : callSite ∈ s'.prepared := hs'.prepared (by simp)
      refine ⟨{ hs' with prepared := fun _ h => hs'.prepared (by simp [h]), locals := fun site h => ?_ },
        fun _ => hmem⟩
      rcases hs'.locals site h with h | h
      · rcases List.mem_cons.1 h with rfl | h
        · exact .inr hkept
        · exact .inl h
      · exact .inr h
  · next hpass =>
    have hother : cx.pass = .setup → False := by simp [hpass]
    split
    · exact ⟨.refl s, fun h => (hother h).elim⟩
    · refine Step.ends_bind.2 (Step.ends_set.2 ?_)
      have hmark : cx.Extends s { s with initialized := callSite :: s.initialized } :=
        { Extends.refl s with initialized := fun _ h => by simp [h] }
      split
      · exact ⟨hmark, fun h => (hother h).elim⟩
      · have hemits : cx.Keeps (cx.emitInitializers callSite) :=
          keeps_of_pays (·.pays_emitInitializers callSite)
        refine Step.ends_bind.2 ((hemits _).mono fun _ s1 h => ?_)
        exact (keeps_recordInitializers s1).mono fun _ _ h' => ⟨(hmark.trans h).trans h', fun h => (hother h).elim⟩

/-- The call sites on a call stack are prepared in the setup pass. -/
theorem grows_initializeLocals :
    Step.Ends (fun _ => True) s (cx.initializeLocals stack) fun _ s' =>
      cx.Extends s s' ∧ (cx.pass = .setup → ∀ site ∈ stack.sites, site ∈ s'.prepared) := by
  refine Step.ends_forM (fun done s' => cx.Extends s s' ∧
    (cx.pass = .setup → ∀ site ∈ done, site ∈ s'.prepared)) ⟨.refl s, by simp⟩ ?_
  rintro done site rest - s1 ⟨h1, hdone⟩
  refine grows_initializeSite.mono fun _ s2 ⟨h2, hsite⟩ => ⟨h1.trans h2, fun hpass site' h => ?_⟩
  rcases List.mem_append.1 h with h | h
  · exact h2.prepared (hdone hpass site' h)
  · rw [List.mem_singleton.1 h]
    exact hsite hpass

theorem keeps_enterFrames : cx.Keeps (cx.enterFrames stack) := fun s =>
  Step.ends_get_bind.2 (Step.ends_lift_bind fun _ _ => { Extends.refl s with })

/-! ## Parts of the walk -/

variable {lower : ExprId → Step Unit} {pin : String}

variable (cx) in
/-- `lower` extends the state and comes to the expression it is given. -/
def Comes (lower : ExprId → Step Unit) : Prop :=
  ∀ c s, Step.Ends (fun _ => True) s (lower c) fun _ s' => cx.Extends s s' ∧ s'.Met c

theorem Comes.keeps (h : cx.Comes lower) (c : ExprId) : cx.Keeps (lower c) := fun s =>
  (h c s).mono fun _ _ h => h.1

/-- Where no expression that was met is forgotten, the children of an expression are met one by one. -/
theorem ends_lowerChildren_met (h : ∀ c s, Step.Ends (fun _ => True) s (lower c) fun _ s' =>
      (∀ c', s.Met c' → s'.Met c') ∧ s'.Met c) :
    Step.Ends (fun _ => True) s (cx.lowerChildren lower e) fun _ s' => ∀ c, cx.tree.IsChild e c → s'.Met c := by
  refine Step.ends_lift_bind fun children hchildren => ?_
  refine (Step.ends_forM (fun done s' => ∀ c ∈ done, s'.Met c) (by simp) ?_).mono ?_
  · rintro done c rest - s1 hdone
    refine (h c s1).mono fun _ s2 ⟨hle, hmet⟩ c' hc' => ?_
    rcases List.mem_append.1 hc' with hc' | hc'
    · exact hle c' (hdone c' hc')
    · rw [List.mem_singleton.1 hc']
      exact hmet
  · rintro _ s' hmet c ⟨x, hx, hc⟩
    rw [Tree.children_eq hx] at hchildren
    cases hchildren
    exact hmet c hc

theorem Comes.grows_lowerChildren (h : cx.Comes lower) :
    Step.Ends (fun _ => True) s (cx.lowerChildren lower e) fun _ s' => cx.Extends s s' ∧ cx.ChildrenMet s' e := by
  have hkeeps : cx.Keeps (cx.lowerChildren lower e) := keeps_lift.bind fun _ => keeps_forM fun c _ => h.keeps c
  have hmet : Step.Ends (fun _ => True) s (cx.lowerChildren lower e) fun _ s' => ∀ c, cx.tree.IsChild e c → s'.Met c :=
    ends_lowerChildren_met fun c s => (h c s).mono fun _ _ h => ⟨fun _ hmet => h.1.met hmet, h.2⟩
  exact Checked.Ends.mono (Checked.Ends.and (hkeeps s) hmet) fun r h => ⟨h.1, fun x hx _ c hc => h.2 c ⟨x, hx, hc⟩⟩

theorem growing_answers : (growing cx).Answers cx :=
  { growing_emits with
    entry := fun he hkind hlower =>
      growing_emits.pays_lowerEntry he hlower (fun s _ => { Extends.refl s with }) hkind
    operand := fun _ _ => pays_of_tries tries_operandOf
    value := fun _ _ => pays_of_tries (Finds.tries finds_valueOperand)
    label := fun {_ n} _ _ => pays_of_tries (Finds.tries (finds_caseLabel n))
    scratch := fun _ _ => pays_of_tries (Finds.tries finds_comparisonScratch)
    watch := fun _ _ _ _ _ => pays_of_tries (tries_operandOf.bind fun _ => tries_watch) }

theorem tries_lowerExpr (h : ∀ c, cx.Keeps (lower c)) : cx.Tries (cx.lowerExpr lower e) := fun s =>
  (growing_answers.tries_lowerExpr trivial (fun c _ s _ => h c s) s trivial).mono (fun _ _ h => h) fun _ _ h => h.1

/-- In setup, an expression that does not fail has its children met. -/
theorem Comes.grows_lowerExpr (h : cx.Comes lower) (s : State) :
    Attempt.Ends (fun _ => True) s (cx.lowerExpr lower e)
      (fun _ s' => cx.Extends s s' ∧ (cx.pass = .setup → cx.ChildrenMet s' e)) fun _ s' => cx.Extends s s' := by
  cases hpass : cx.pass with
  | emit => exact (tries_lowerExpr h.keeps s).mono (fun _ _ h => ⟨h, by simp⟩) fun _ _ h => h
  | setup =>
    have hown : cx.Tries (cx.lowerExpr idle e) := tries_lowerExpr fun _ => keeps_pure
    refine ends_lowerExpr_of_own hpass (.refl s) (fun hexit => ⟨.refl s, fun _ x hx hne => ?_⟩) ?_
    · rw [Tree.kind_eq hx] at hexit
      exact absurd (Except.ok.inj hexit) hne
    · refine h.grows_lowerChildren.mono fun _ s1 ⟨h1, hmet⟩ => ?_
      exact (hown s1).mono (fun _ _ h2 => ⟨h1.trans h2, fun _ => hmet.mono h2⟩) fun _ _ h2 => h1.trans h2

/-! ## The walk -/

variable (cx) in
theorem grows_fail {error : LowerError} :
    Step.Ends (fun _ => True) s (fail e error) fun _ s' => cx.Extends s s' ∧ e ∈ s'.failed := by
  unfold fail
  refine Step.ends_bind.2 (Step.ends_modify.2 ?_)
  have hmark : cx.Extends s { s with failed := e :: s.failed } :=
    { Extends.refl s with failed := fun _ h => by simp [h], covered := fun _ _ h => .inl h }
  split
  · exact Step.ends_modify.2 ⟨hmark.trans (extends_error _ _), by simp⟩
  · exact Step.ends_pure.2 ⟨hmark, by simp⟩

section Walk

variable (h : cx.Comes lower)
include h

/-- After its setup an expression is covered. -/
theorem Comes.grows_lowerUnder :
    Step.Ends (fun _ => True) s (cx.lowerUnder lower e) fun _ s' =>
      cx.Extends s s' ∧ (cx.pass = .setup → cx.Covered s' e) := by
  unfold lowerUnder
  refine Step.ends_get_bind.2 (Step.ends_lift_bind fun x hx => ?_)
  have hx : cx.tree.expr? e = some x := Checked.get_eq_ok.1 hx
  have hcall (s : State) (stack : CallStack) : cx.Extends s { s with callStack := stack } :=
    { Extends.refl s with }
  refine Step.ends_bind.2 ((keeps_enterFrames s).mono fun _ s1 h1 => ?_)
  refine Step.ends_bind.2 (grows_initializeLocals.mono fun _ s2 ⟨h2, hsites⟩ => ?_)
  have h02 := h1.trans h2
  refine Step.ends_bind.2 (Step.ends_modify.2 (Step.ends_bind.2 ?_))
  refine Step.Ends.mono (h.grows_lowerExpr _) fun r s3 h3 => ?_
  cases r with
  | error error =>
    refine Step.ends_bind.2 ((grows_fail cx).mono fun _ s4 ⟨h4, hfailed⟩ => ?_)
    exact ⟨((h02.trans ((hcall _ _).trans h3)).trans h4).trans (hcall _ _), fun _ => .inl hfailed⟩
  | ok _ =>
    refine Step.ends_modify.2
      ⟨(h02.trans ((hcall _ _).trans h3.1)).trans (hcall _ _), fun hpass => .inr ⟨?_, ?_⟩⟩
    · exact (h3.2 hpass).mono (hcall _ _)
    · intro x' p hx' hp site hsite
      rw [hx] at hx'
      cases hx'
      rw [hp] at hsites
      exact h3.1.prepared (hsites hpass site hsite)

theorem Comes.lowerOnce : cx.Comes (cx.lowerOnce lower) := by
  intro e s
  unfold Context.lowerOnce
  refine Step.ends_get_bind.2 ?_
  split
  · next hmet => exact ⟨.refl s, hmet.symm⟩
  · refine Step.ends_bind.2 (Step.ends_set.2 (Step.ends_bind.2 (h.grows_lowerUnder.mono ?_)))
    rintro _ s1 ⟨h1, hcovered⟩
    have hspan : cx.Extends s1 { s1 with spans := ⟨e, s.code.size, s1.code.size⟩ :: s1.spans } :=
      { Extends.refl s1 with }
    refine Step.ends_modify.2 ⟨?_, .inl (h1.visited (by simp))⟩
    refine Extends.trans { h1 with
      visited := fun _ h => h1.visited (by simp [h])
      covered := fun hpass e' he' => ?_ } hspan
    rcases h1.covered hpass e' he' with he' | he'
    · rcases List.mem_cons.1 he' with rfl | he'
      · exact .inr (hcovered hpass)
      · exact .inl he'
    · exact .inr he'

end Walk

theorem comes_lowerWithin (depth : Nat) : cx.Comes (cx.lowerWithin depth) := by
  induction depth with
  | zero => exact fun _ _ => trivial
  | succ depth ih => exact ih.lowerOnce

end Context

/-- A pass extends the state it starts in, and comes to all roots. -/
theorem Context.grows_lowerRoots :
    Step.Ends (fun _ => True) s cx.lowerRoots fun _ s' =>
      cx.Extends s.restarted s' ∧ ∀ e ∈ cx.tree.roots, s'.Met e := by
  unfold Context.lowerRoots
  refine Step.ends_bind.2 (Step.ends_modify.2 ?_)
  refine Step.ends_forM (fun done s' => cx.Extends s.restarted s' ∧ ∀ e ∈ done, s'.Met e)
    ⟨.refl _, by simp⟩ ?_
  rintro done e rest - s1 ⟨h1, hdone⟩
  refine (comes_lowerWithin _ e s1).mono fun _ s2 ⟨h2, hmet⟩ => ⟨h1.trans h2, fun e' he' => ?_⟩
  rcases List.mem_append.1 he' with he' | he'
  · exact h2.met (hdone e' he')
  · rw [List.mem_singleton.1 he']
    exact hmet

theorem Context.keeps_checkWatches : cx.Keeps cx.checkWatches :=
  keeps_of_pays (·.pays_checkWatches)

/-- The check of the watched pins only reports. -/
theorem Context.reports_checkWatches :
    Step.Ends (fun _ => True) s cx.checkWatches fun _ s' => s' = { s with report := s'.report } := by
  unfold Context.checkWatches
  refine Step.ends_forM (fun _ s' => s' = { s with report := s'.report }) rfl ?_
  rintro done path rest - s1 h1
  generalize cx.tree.graph.findByPath (barePath path) = found
  refine Step.ends_lift_bind fun r _ => ?_
  cases r with
  | some _ => exact h1
  | none =>
    rw [h1]
    rfl

theorem Context.stored_checkWatches : Step.Ends (fun _ => True) s cx.checkWatches fun _ s' => Stored s s' := by
  refine reports_checkWatches.mono fun _ s' h => ?_
  rw [h]
  exact ⟨.refl _, rfl⟩

end Lowering

/-! ## Both passes -/

/-- The states after the watches were checked, after the setup pass and after the emit pass, each of which
extends the one before. -/
structure Tree.Passes (t : Tree) (env : Environment) (options : CompileOptions) (sharing : Sharing)
    (checked prepared s : Lowering.State) : Prop where
  checks : Lowering.Context.checkWatches ⟨t, env, options, sharing, .setup⟩ {} = .ok ((), checked)
  prepares : Lowering.Context.lowerRoots ⟨t, env, options, sharing, .setup⟩ checked = .ok ((), prepared)
  emits : Lowering.Context.lowerRoots ⟨t, env, options, sharing, .emit⟩ prepared = .ok ((), s)
  watches : Lowering.Context.Extends ⟨t, env, options, sharing, .setup⟩ {} checked
  setup : Lowering.Context.Extends ⟨t, env, options, sharing, .setup⟩ checked.restarted prepared
  met : ∀ e ∈ t.roots, prepared.Met e
  emit : Lowering.Context.Extends ⟨t, env, options, sharing, .emit⟩ prepared.restarted s

namespace Tree

open Lowering

variable {t : Tree} {env : Environment} {options : CompileOptions} {sharing : Sharing}
  {s checked prepared : State} {key : String} {o : Operand}

theorem exists_passes (h : t.loweredWith env options sharing = .ok s) :
    ∃ checked prepared, t.Passes env options sharing checked prepared s := by
  unfold loweredWith at h
  obtain ⟨⟨_, s'⟩, hrun, h⟩ := Checked.bind_eq_ok.1 h
  dsimp only at h
  split at h
  · cases h
    obtain ⟨⟨_, checked⟩, hchecks, hrun⟩ := Checked.bind_eq_ok.1 hrun
    obtain ⟨⟨_, prepared⟩, hprepares, hemits⟩ := Checked.bind_eq_ok.1 hrun
    have hwatches := Checked.Ends.of_ok (Context.keeps_checkWatches _) hchecks
    have hsetup := Checked.Ends.of_ok Context.grows_lowerRoots hprepares
    have hemit := Checked.Ends.of_ok Context.grows_lowerRoots hemits
    exact ⟨checked, prepared, hchecks, hprepares, hemits, hwatches, hsetup.1, hsetup.2, hemit.1⟩
  · cases h

section

variable (h : t.Passes env options sharing checked prepared s)

include h

/-- Nothing is found before the passes. -/
theorem Passes.checked_eq : checked = { report := checked.report } := by
  have hchecks := Checked.Ends.of_ok Context.reports_checkWatches h.checks
  exact hchecks

theorem Passes.named (ho : s.storage.keyed.lookup key = some o) : s.storage.Named key o := by
  have hextends := (h.watches.storage.trans h.setup.storage).trans h.emit.storage
  exact (hextends.named ho).resolve_left fun hnone => nomatch hnone

/-- Without failures, the children of what the setup pass met are met, and its call sites prepared. -/
theorem Passes.covered (hfailed : prepared.failed = []) {e : ExprId} (he : prepared.Met e) :
    Context.ChildrenMet ⟨t, env, options, sharing, .setup⟩ prepared e ∧ ∀ x p, t.expr? e = some x →
      x.proxy = some p → ∀ site ∈ p.callStack.sites, site ∈ prepared.prepared := by
  have hcovered : Context.Covered ⟨t, env, options, sharing, .setup⟩ prepared e := by
    rcases he with he | he
    · exact (h.setup.covered rfl e he).resolve_left fun h => nomatch h
    · exact .inl he
  exact hcovered.resolve_left (by simp [hfailed])

/-- Without errors, the locals of the call sites met in the setup pass have registers. -/
theorem Passes.kept (herrors : s.report.errors = 0) {site : CallStack} (hsite : site ∈ prepared.prepared) :
    Context.LocalsKept ⟨t, env, options, sharing, .emit⟩ prepared.storage site := by
  have hnone : prepared.report.errors = 0 := Nat.le_zero.1 (herrors ▸ h.emit.errors)
  rcases h.setup.locals site hsite with hsite | herror | hkept
  · rcases h.watches.locals site hsite with hsite | herror | hkept
    · cases hsite
    · exact absurd (Nat.le_zero.1 (hnone ▸ h.setup.errors)) (Nat.ne_of_gt herror)
    · exact hkept.mono h.setup.storage
  · exact absurd hnone (Nat.ne_of_gt herror)
  · exact hkept

end

section

variable (h : t.loweredWith env options sharing = .ok s)

include h

/-- The operand of a key is that of a register with the key for a name. -/
theorem named_of_lowered (ho : s.storage.keyed.lookup key = some o) : s.storage.Named key o := by
  obtain ⟨checked, prepared, hpasses⟩ := exists_passes h
  exact hpasses.named ho

/-- The operand of every value expression is where the value of its pin is kept. -/
theorem placed_of_lowered :
    ∀ entry ∈ s.operands, Context.Placed ⟨t, env, options, sharing, .emit⟩ s.storage entry := by
  obtain ⟨checked, prepared, hpasses⟩ := exists_passes h
  intro entry hentry
  rcases hpasses.emit.operands entry hentry with hentry | hplaced
  · refine Context.Placed.mono ?_ hpasses.emit.storage
    rcases hpasses.setup.operands entry hentry with hentry | hplaced
    · rcases hpasses.watches.operands entry hentry with hentry | hplaced
      · cases hentry
      · exact hplaced.mono hpasses.setup.storage
    · exact hplaced
  · exact hplaced

/-- Every register was made under its name. -/
theorem made_of_lowered {space : MemorySpace} {table : MemoryTable} {r : Register}
    (ht : s.storage.table? space = some table) (hr : r ∈ table.registers) : Made env.types t sharing space r := by
  obtain ⟨checked, prepared, hpasses⟩ := exists_passes h
  have hadds := (hpasses.watches.registers.trans hpasses.setup.registers).trans hpasses.emit.registers
  rcases hadds ht hr with ⟨old, hold, hr⟩ | hmade
  · have hempty : old.registers = [] := by
      cases space with
      | external => cases hold
      | _ => cases hold; rfl
    rw [hempty] at hr
    cases hr
  · exact hmade

/-- The register named by a key was made under it. -/
theorem makes_of_named (ho : s.storage.Named key o) :
    ∃ table r build, s.storage.table? o.memory = some table ∧
      table.registers[o.index]? = some r ∧ Makes env.types t sharing o.memory key build ∧
      build.run = .ok (.ok r) := by
  obtain ⟨-, table, r, ht, hr, rfl⟩ := ho
  obtain ⟨build, hmakes, hbuild⟩ := made_of_lowered h ht (List.mem_of_getElem? hr)
  exact ⟨table, r, build, ht, hr, hmakes, hbuild⟩

end

end Tree
end NodeGraph
