import Mathlib.Logic.Relation
import NodeGraph.Proofs.Lowering.Keys
import NodeGraph.Proofs.Lowering.Settling
import NodeGraph.Proofs.Lowering.Setup

/-!
# Arguments of functions

A register is made when it is first asked for, and a register for a pin of a function then takes the default text
that the call site gives. That text is found only while an expression inside the call site was the last one to be
entered: the frames are those of its call stack (`ends_enterFrames`), and they stay when its parent goes on. So
the register has the argument for sure if every expression that may be the first to ask has nothing below it that
is outside of the call site (`Supply.Kept.served_of_lowerRoots`).
-/
namespace NodeGraph

/-! ## Frames -/

variable {cx : Context}

/-- The default text that a call site gives to an argument: that of the first pin of the name on its input side
that has one. -/
def Graph.argument? (g : Graph) (callSite : NodeId) (name : String) : Option String :=
  (g.node? callSite).bind fun node =>
    ((node.pins.filterMap g.pin?).find? fun pin =>
      pin.direction.isInputSide && pin.defaultValue ≠ "" && pin.name = name).map Pin.defaultValue

namespace Lowering

variable {g : Graph} {frames : List ArgumentFrame} {frame : ArgumentFrame} {site : NodeId} {name : String}

theorem filterMap_of_mapM {pins : List Pin} {ids : List PinId} (h : ids.mapM g.pin = .ok pins) :
    ids.filterMap g.pin? = pins := by
  induction ids generalizing pins with
  | nil => cases h; rfl
  | cons id ids ih =>
    obtain ⟨pin, rest, rfl, hpin, hrest⟩ := Checked.mapM_cons_eq_ok h
    rw [List.filterMap_cons, Graph.pin_eq_ok.1 hpin]
    exact congrArg (pin :: ·) (ih hrest)

theorem callSite_capture (h : ArgumentFrame.capture g site = .ok frame) : frame.callSite = site := by
  obtain ⟨node, -, h⟩ := Checked.bind_eq_ok.1 h
  obtain ⟨pins, -, h⟩ := Checked.bind_eq_ok.1 h
  cases h
  rfl

theorem lookup_written (pins : List Pin) (name : String) :
    List.lookup name ((pins.filter fun pin => pin.direction.isInputSide && pin.defaultValue ≠ "").map fun pin =>
      (pin.name, pin.defaultValue)) =
    (pins.find? fun pin => pin.direction.isInputSide && pin.defaultValue ≠ "" && pin.name = name).map
      Pin.defaultValue := by
  induction pins with
  | nil => rfl
  | cons pin pins ih =>
    rw [List.filter_cons, List.find?_cons]
    by_cases hwritten : (pin.direction.isInputSide && pin.defaultValue ≠ "") = true
    · rw [if_pos hwritten, hwritten, List.map_cons, List.lookup_cons, Bool.true_and]
      by_cases hname : pin.name = name
      · rw [hname, beq_self_eq_true, decide_eq_true rfl]
        rfl
      · rw [beq_eq_false_iff_ne.2 (Ne.symm hname), decide_eq_false hname]
        exact ih
    · rw [if_neg hwritten, Bool.eq_false_iff.2 hwritten, Bool.false_and]
      exact ih

theorem lookup_capture (h : ArgumentFrame.capture g site = .ok frame) (name : String) :
    frame.defaults.lookup name = g.argument? site name := by
  obtain ⟨node, hnode, h⟩ := Checked.bind_eq_ok.1 h
  obtain ⟨pins, hpins, h⟩ := Checked.bind_eq_ok.1 h
  cases h
  rw [Graph.argument?, Graph.node_eq_ok.1 hnode, Option.bind_some, filterMap_of_mapM hpins]
  exact lookup_written pins name

/-- The frames hold what the call sites give. -/
def Captured (g : Graph) (frames : List ArgumentFrame) : Prop :=
  ∀ frame ∈ frames, ArgumentFrame.capture g frame.callSite = .ok frame

/-- A call site with a frame gives its arguments. -/
theorem argumentDefault_of_mem (h : Captured g frames) (hsite : site ∈ frames.map ArgumentFrame.callSite) :
    argumentDefault frames site name = g.argument? site name := by
  unfold argumentDefault
  cases hfind : frames.reverse.find? (·.callSite = site) with
  | none =>
    obtain ⟨frame, hframe, rfl⟩ := List.mem_map.1 hsite
    simpa using List.find?_eq_none.1 hfind frame (List.mem_reverse.2 hframe)
  | some frame =>
    have hcapture := h frame (List.mem_reverse.1 (List.mem_of_find?_eq_some hfind))
    have heq : frame.callSite = site := by simpa using List.find?_some hfind
    rw [heq] at hcapture
    exact lookup_capture hcapture name

theorem argumentDefault_of_notMem (hsite : site ∉ frames.map ArgumentFrame.callSite) :
    argumentDefault frames site name = none := by
  unfold argumentDefault
  have hfind : frames.reverse.find? (·.callSite = site) = none := by
    refine List.find?_eq_none.2 fun frame hframe heq => hsite ?_
    exact List.mem_map.2 ⟨frame, List.mem_reverse.1 hframe, of_decide_eq_true heq⟩
  rw [hfind]
  rfl

/-! ## Entering -/

theorem sites_take_commonFrames (frames : List ArgumentFrame) (stack : CallStack) :
    (frames.take (commonFrames frames stack)).map ArgumentFrame.callSite =
      stack.take (commonFrames frames stack) := by
  fun_induction commonFrames frames stack with
  | case1 frame frames sites ih => simp [ih]
  | case2 | case3 => simp

theorem sites_of_captured {stack : CallStack} {entered : List ArgumentFrame}
    (h : stack.mapM (m := Checked) (ArgumentFrame.capture g) = .ok entered) :
    Captured g entered ∧ entered.map ArgumentFrame.callSite = stack := by
  induction stack generalizing entered with
  | nil => cases h; exact ⟨nofun, rfl⟩
  | cons site stack ih =>
    obtain ⟨frame, rest, rfl, hframe, hrest⟩ := Checked.mapM_cons_eq_ok h
    obtain ⟨hcaptured, hsites⟩ := ih hrest
    have hsite := callSite_capture hframe
    exact ⟨List.forall_mem_cons.2 ⟨hsite ▸ hframe, hcaptured⟩, by rw [List.map_cons, hsite, hsites]⟩

/-- After entering a call stack there is a frame for each of its call sites, and no other. -/
theorem ends_enterFrames {s : State} {stack : CallStack} (hs : Captured cx.tree.graph s.frames) :
    Step.Ends (fun _ => True) s (cx.enterFrames stack) fun _ s' => Captured cx.tree.graph s'.frames ∧
      s'.frames.map ArgumentFrame.callSite = stack ∧ s' = { s with frames := s'.frames } := by
  refine Step.ends_get_bind.2 (Step.ends_lift_bind fun entered hentered => ?_)
  obtain ⟨hcaptured, hsites⟩ := sites_of_captured hentered
  refine ⟨fun frame hframe => ?_, ?_, rfl⟩
  · rcases List.mem_append.1 hframe with hframe | hframe
    · exact hs frame (List.mem_of_mem_take hframe)
    · exact hcaptured frame hframe
  · show (s.frames.take (commonFrames s.frames stack) ++ entered).map ArgumentFrame.callSite = stack
    rw [List.map_append, sites_take_commonFrames, hsites, List.take_append_drop]

end Lowering

/-! ## Uses of a group -/

namespace Tree

variable (t : Tree) (sharing : Sharing) (least : Proxy)

/-- A pin of the group with this least pin, or a pin below one. -/
def InGroup (p : Proxy) : Prop :=
  ∃ id root, p.pin? = some id ∧ t.graph.rootPin id = .ok root ∧ sharing.representative (p.withPin root) = least

/-- An expression for a pin of the group: a variable expression, or one that transfers from or to such a pin. -/
def Uses (e : ExprId) : Prop :=
  ∃ x target p, t.expr? e = some x ∧ x.proxy = some target ∧ t.InGroup sharing least p ∧
    (x.kind = .var ∧ p = target ∨ x.kind.isTransfer = true ∧ (p = target ∨ x.source = some p))

end Tree

namespace Lowering

variable {a b : Storage}

/-- The register of a group of pins, and the call stacks inside which it may be made. -/
structure Supply where
  /-- The least pin of the group. -/
  pin : Proxy
  key : String
  seen : CallStack → Prop

namespace Supply

/-- A shape that the least pin has inside one of the call stacks. -/
def Shape (S : Supply) (g : Graph) (spec : RegisterSpec) : Prop :=
  ∃ frames, Captured g frames ∧ S.seen (frames.map ArgumentFrame.callSite) ∧ pinSpec g frames S.pin = .ok spec

variable (S : Supply) (cx : Context)

/-- What is below an expression is inside the call stacks. -/
def Within (e : ExprId) : Prop :=
  ∀ d x p, Relation.ReflTransGen cx.tree.IsChild e d → cx.tree.expr? d = some x → x.proxy = some p → S.seen p.callStack

/-- Nobody asks for the register outside of these call stacks, unless it is there. -/
structure Kept : Prop where
  names : cx.tree.graph.PlainNames
  graph : cx.tree.graph.WellFormed
  sharing : cx.sharing.ExistsIn cx.tree.graph
  isSome : S.pin.pin?.isSome = true
  path : S.pin.path cx.tree.graph = .ok S.key
  within {e} : cx.tree.Uses cx.sharing S.pin e → S.Within cx e
  /-- A child that is asked for has found its operand, unless it may be found at any time. -/
  settles : (∀ stack, S.seen stack) ∨ (∀ e, ¬ Relation.TransGen cx.tree.IsChild e e) ∧
    ∀ {e x}, cx.tree.Uses cx.sharing S.pin e → cx.tree.expr? e = some x → x.kind = .var →
      (x.pin?.bind cx.tree.graph.pin?).any Pin.isExecute = false

/-- The register has one of the shapes, if it is there. -/
def Served (a : Storage) : Prop :=
  ∀ o, a.keyed.lookup S.key = some o → o.memory = .work ∧ ∃ r spec, a.work.registers[o.index]? = some r ∧
    S.Shape cx.tree.graph spec ∧ (cx.env.types.buildRegister S.key spec).run = .ok (.ok r)

/-- Between the operands that an expression asks for. Its children are lowered, so those that find their operand
by themselves have found it. -/
structure Phase (e : ExprId) (s : State) : Prop where
  served : S.Served cx s.storage
  captured : Captured cx.tree.graph s.frames
  seen : cx.tree.Uses cx.sharing S.pin e → S.seen (s.frames.map ArgumentFrame.callSite)
  children : ∀ {v}, cx.tree.IsChild e v → cx.Asks v v →
    (s.Knows v ∨ v ∈ s.failed) ∨ S.seen (s.frames.map ArgumentFrame.callSite)

/-- The account of what an expression asks for when its children are lowered. -/
def asking : Account where
  moves e _ s s' := s'.frames = s.frames ∧ (S.Phase cx e s → S.Phase cx e s')
  lowers _ s s' := s' = s

/-- An attempt on behalf of an expression, from one state. -/
def AsksFrom {α : Type} (e : ExprId) (s : State) (m : Attempt α) : Prop := (S.asking cx).TriesFrom e 0 s m

end Supply

/-! ## Asking for operands -/

theorem Storage.Le.register (h : a.Le b) {i : Nat} {r : Register} (hr : a.work.registers[i]? = some r) :
    b.work.registers[i]? = some r := by
  obtain ⟨_, hwork, hle⟩ := h .work a.work rfl
  cases hwork
  obtain ⟨rest, hrest⟩ := hle.registers
  rw [← hrest, List.getElem?_append_left (List.getElem?_eq_some_iff.1 hr).1]
  exact hr

theorem Storage.keyed_addPath {base o : Operand} {segments : String} (h : a.addPath base segments = some (b, o)) :
    b.keyed = a.keyed := by
  obtain ⟨table, -, -, rfl⟩ := addPath_eq_some.1 h
  exact keyed_setTable _ _

/-- An expression asks for its own operand or for that of a child. -/
theorem Context.Asks.self_or_child {e c : ExprId} (h : cx.Asks e c) : c = e ∨ cx.tree.IsChild e c := by
  cases h with
  | value | cached => exact .inl rfl
  | pin _ _ hvar => exact .inr (Tree.isChild_of_varForPin hvar).1
  | case _ hcases hc => exact .inr (Tree.isChild_of_subPinValues hcases hc)
  | source htransfers hfound => exact .inr ⟨_, htransfers.expr, (Checked.mem_of_findM? hfound).1⟩

theorem Context.AsksPin.uses {e : ExprId} {p least : Proxy} (h : cx.AsksPin e p)
    (hgroup : cx.tree.InGroup cx.sharing least p) : cx.tree.Uses cx.sharing least e := by
  cases h with
  | target htransfers => exact ⟨_, _, _, htransfers.expr, htransfers.writes, hgroup, .inr ⟨htransfers.kind, .inl rfl⟩⟩
  | source htransfers =>
    exact ⟨_, _, _, htransfers.expr, htransfers.writes, hgroup, .inr ⟨htransfers.kind, .inr htransfers.reads⟩⟩

namespace Supply

variable {S : Supply} {e : ExprId} {s : State} {key : String} {p : Proxy} {space : MemorySpace} {o : Operand}

theorem asking_graded : (S.asking cx).Graded where
  refl _ _ := ⟨rfl, id⟩
  trans h h' := ⟨h'.1.trans h.1, fun hphase => h'.2 (h.2 hphase)⟩
  raise h _ := h

theorem Served.of_extends (h : S.Served cx a) (hle : a.Le b)
    (hkeyed : b.keyed.lookup S.key = a.keyed.lookup S.key) : S.Served cx b := by
  intro o ho
  obtain ⟨hmemory, r, spec, hr, hspec, hbuild⟩ := h o (hkeyed ▸ ho)
  exact ⟨hmemory, r, spec, hle.register hr, hspec, hbuild⟩

theorem Served.addRegister {r : Register} (h : S.Served cx a) (hadd : a.addRegister space r = some (b, o))
    (hown : r.name = S.key → space = .work ∧ ∃ spec, S.Shape cx.tree.graph spec ∧
      (cx.env.types.buildRegister S.key spec).run = .ok (.ok r)) : S.Served cx b := by
  obtain ⟨hle, -, hkeyed⟩ : a.Le b ∧ b.Holds 0 o ∧ b.keyed = (r.name, o) :: a.keyed := Storage.addRegister_spec hadd
  by_cases hname : S.key = r.name
  · intro o' ho'
    rw [hkeyed, ← hname, List.lookup_cons, beq_self_eq_true] at ho'
    cases ho'
    obtain ⟨rfl, spec, hspec, hbuild⟩ := hown hname.symm
    obtain ⟨rfl, rfl⟩ := Prod.mk.inj (Option.some.inj hadd)
    refine ⟨rfl, r, spec, ?_, hspec, hbuild⟩
    show (a.work.registers ++ [r])[a.work.registers.length]? = some r
    simp
  · refine h.of_extends hle ?_
    rw [hkeyed, List.lookup_cons, beq_eq_false_iff_ne.2 hname]

theorem Phase.stored {storage : Storage} (h : S.Phase cx e s) (hs : S.Served cx storage) :
    S.Phase cx e { s with storage := storage } := { h with served := hs }

theorem asksFrom_allocateWith {pin : Option PinId} {build : Typed Register}
    (hname : ∀ {r}, build.run = .ok (.ok r) → r.name = key)
    (hown : S.Phase cx e s → key = S.key → space = .work ∧ ∃ spec, S.Shape cx.tree.graph spec ∧
      build = cx.env.types.buildRegister S.key spec) :
    S.AsksFrom cx e s (allocateWith key space pin build) := by
  refine Attempt.ends_get_bind.2 ?_
  split
  · exact ⟨rfl, id⟩
  · refine Attempt.ends_bind.2 (ends_typed.mono ?_ ?_)
    · rintro r _ ⟨rfl, hr⟩
      refine Attempt.ends_get_bind.2 ?_
      split
      · exact asking_graded.tries_throw trivial _ trivial
      · next storage o hadd =>
        refine ⟨rfl, fun hphase => hphase.stored (hphase.served.addRegister hadd fun hkey => ?_)⟩
        obtain ⟨hspace, spec, hspec, rfl⟩ := hown hphase ((hname hr).symm.trans hkey)
        exact ⟨hspace, spec, hspec, hr⟩
    · rintro error _ rfl
      exact ⟨asking_graded.refl e _, trivial⟩

section Finding

variable (h : S.Kept cx)

include h

theorem Kept.ne_key (hcolon : ':' ∈ key.toList) : key ≠ S.key := by
  rintro rfl
  exact Proxy.colon_notMem_path h.names.bare h.isSome h.path hcolon

theorem Kept.tries_allocate {spec : RegisterSpec} (hcolon : ':' ∈ key.toList) :
    (S.asking cx).Tries e 0 (cx.allocate key space spec) := fun _ _ =>
  asksFrom_allocateWith name_buildRegister fun _ hkey => absurd hkey (h.ne_key hcolon)

theorem Kept.tries_allocateFor (hcolon : ':' ∈ key.toList) :
    (S.asking cx).Tries e 0 (cx.allocateFor key space p) := by
  intro s _
  refine Attempt.ends_get_bind.2 (Account.tries_lift_bind (fun spec _ => h.tries_allocate hcolon) s trivial)

theorem Kept.tries_caseLabel (n : Nat) : (S.asking cx).Tries e 0 (cx.caseLabel n) := by
  refine h.tries_allocate ?_
  rw [toList_labelKey]
  simp

theorem Kept.tries_comparisonScratch : (S.asking cx).Tries e 0 cx.comparisonScratch :=
  h.tries_allocate (by decide)

theorem Kept.tries_localOperand {callSite : CallStack} {function : String} {v : LocalVariable} :
    (S.asking cx).Tries e 0 (cx.localOperand callSite function v) := by
  refine asking_graded.tries_after (h.tries_allocate ?_) fun _ => Account.tries_lift_bind fun key hkey => ?_
  · simp [localDefaultKey]
  · obtain ⟨sites, -, rfl⟩ := localKey_eq hkey
    exact h.tries_allocate (by simp)

theorem Kept.tries_variableOperand : (S.asking cx).Tries e 0 (cx.variableOperand p) := by
  unfold Context.variableOperand
  dsimp only
  cases p.pin? with
  | none => exact asking_graded.tries_throw
  | some id =>
    refine Account.tries_lift_bind fun pin _ => Account.tries_lift_bind fun node _ => ?_
    cases node.kind with
    | parameter name isInput => exact h.tries_allocateFor (by simp)
    | variableAccess name isGetter =>
      refine Account.tries_lift_bind fun found _ => ?_
      cases found with
      | some access => exact h.tries_localOperand
      | none =>
        dsimp only
        cases cx.env.externalIndex? name with
        | some index => exact asking_graded.tries_pure
        | none => exact asking_graded.tries_throw
    | _ => exact asking_graded.tries_throw

theorem Kept.tries_constantOperand : (S.asking cx).Tries e 0 (cx.constantOperand p) := by
  unfold Context.constantOperand
  dsimp only
  cases p.pin? with
  | none => exact asking_graded.tries_throw
  | some id =>
    refine Account.tries_lift_bind fun pin _ => Account.tries_lift_bind fun path _ => h.tries_allocateFor ?_
    split <;> simp

theorem Kept.tries_watchOperand : (S.asking cx).Tries e 0 (cx.watchOperand p) := by
  unfold Context.watchOperand
  dsimp only
  cases p.pin? with
  | none => exact asking_graded.tries_throw
  | some id =>
    refine Account.tries_lift_bind fun pin _ => Account.tries_lift_bind fun path _ => fun s _ => ?_
    exact asksFrom_allocateWith name_buildWatch fun _ hkey => absurd hkey (h.ne_key (by simp))

omit h in
theorem tries_externalOperand : (S.asking cx).Tries e 0 (cx.externalOperand p) := by
  unfold Context.externalOperand
  dsimp only
  cases p.pin? with
  | none => exact asking_graded.tries_throw
  | some id =>
    refine Account.tries_lift_bind fun pin _ => ?_
    split
    · refine Account.tries_lift_bind fun name _ => ?_
      cases cx.env.externalIndex? name with
      | some index => exact asking_graded.tries_pure
      | none => exact asking_graded.tries_throw
    · exact Account.tries_lift_bind fun path _ => asking_graded.tries_throw

/-- The register of the group is asked for inside one of the call stacks. -/
theorem Kept.asksFrom_rootOperand (hp : p.pin?.isSome = true) (hseen : cx.sharing.representative p = S.pin →
      S.Phase cx e s → S.seen (s.frames.map ArgumentFrame.callSite)) :
    S.AsksFrom cx e s (cx.rootOperand p) := by
  unfold Context.rootOperand
  dsimp only
  refine Attempt.ends_lift_bind fun found _ => ?_
  cases found with
  | some member => exact h.tries_variableOperand s trivial
  | none =>
    refine Attempt.ends_lift_bind fun path hpath => Attempt.ends_get_bind.2 ?_
    refine Attempt.ends_lift_bind fun spec hspec => ?_
    refine asksFrom_allocateWith name_buildRegister fun hphase hkey => ⟨rfl, spec, ?_, by rw [hkey]⟩
    have hleast : cx.sharing.representative p = S.pin :=
      Proxy.eq_of_path_eq h.names h.graph (Sharing.isSome_pin?_representative h.sharing hp) h.isSome hpath
        (hkey ▸ h.path)
    rw [hleast] at hspec
    exact ⟨s.frames, hphase.captured, hseen hleast hphase, hspec⟩

omit h in
theorem tries_member {base : Operand} {id : PinId} : (S.asking cx).Tries e 0 (cx.memberOperand p id base) := by
  intro s _
  refine Attempt.ends_get_bind.2 (Attempt.ends_lift_bind fun segments _ => ?_)
  split
  · exact Attempt.ends_lift_bind fun path _ => asking_graded.tries_throw trivial s trivial
  · next storage o hadd =>
    refine ⟨rfl, fun hphase => hphase.stored (hphase.served.of_extends (Storage.member_addPath hadd).1.tables ?_)⟩
    rw [Storage.keyed_addPath hadd]

/-- So are its members. -/
theorem Kept.asksFrom_valueOperand (hseen : cx.tree.InGroup cx.sharing S.pin p → S.Phase cx e s →
      S.seen (s.frames.map ArgumentFrame.callSite)) :
    S.AsksFrom cx e s (cx.valueOperand p) := by
  unfold Context.valueOperand
  dsimp only
  cases hid : p.pin? with
  | none => exact asking_graded.tries_throw trivial s trivial
  | some id =>
    refine Attempt.ends_lift_bind fun pin hpin => ?_
    split
    · next hroot =>
      refine h.asksFrom_rootOperand (by simp [hid]) fun hleast => hseen ⟨id, id, hid, ?_, ?_⟩
      · exact (Graph.rootPin_of_isRoot hpin hroot).1
      · rwa [Proxy.withPin_self hid]
    · refine Attempt.ends_lift_bind fun root hroot => ?_
      have hbase := h.asksFrom_rootOperand (p := p.withPin root) rfl fun hleast => hseen ⟨id, root, hid, hroot, hleast⟩
      exact asking_graded.triesFrom_bind trivial hbase fun _ => tries_member

end Finding

/-! ## Asking for the operands of expressions -/

section Expressions

variable {c : ExprId}

theorem Phase.remember (h : S.Phase cx e s) : S.Phase cx e (s.remember c o) where
  served := h.served
  captured := h.captured
  seen := h.seen
  children hv hasks := (h.children hv hasks).imp_left fun hknown =>
    hknown.imp_left fun hk => State.knows_remember.2 (.inl hk)

/-- Only what was not found and may be found is looked for. -/
theorem asksFrom_memoized {find : Attempt Operand} (hfind : ¬ (s.Knows c ∨ c ∈ s.failed) → S.AsksFrom cx e s find) :
    S.AsksFrom cx e s (memoized c find) := by
  refine Attempt.ends_get_bind.2 ?_
  cases hlookup : s.operands.lookup c with
  | some o => exact asking_graded.refl e s
  | none =>
    dsimp only
    split
    · exact asking_graded.tries_throw trivial s trivial
    · next hfailed =>
      have hnew : ¬ (s.Knows c ∨ c ∈ s.failed) := by
        rintro (⟨o, ho⟩ | hmem)
        · cases hlookup.symm.trans ho
        · exact hfailed hmem
      refine Attempt.ends_bind.2 ((hfind hnew).mono (fun o s1 h1 => ?_) fun _ _ h1 => h1)
      exact ⟨h1.1, fun hphase => (h1.2 hphase).remember⟩

/-- A variable expression for a pin of the group. -/
def Names (S : Supply) (cx : Context) (c : ExprId) : Prop :=
  ∃ x p, cx.tree.expr? c = some x ∧ x.kind = .var ∧ x.proxy = some p ∧ cx.tree.InGroup cx.sharing S.pin p

theorem Names.uses (h : S.Names cx c) : cx.tree.Uses cx.sharing S.pin c := by
  obtain ⟨x, p, hx, hkind, hp, hgroup⟩ := h
  exact ⟨x, p, p, hx, hp, hgroup, .inl ⟨hkind, rfl⟩⟩

theorem pays_publish : (S.asking cx).Pays e 0 (cx.publish p o) :=
  Account.pays_lift_bind fun _ _ => Account.pays_modify fun _ => ⟨rfl, fun hphase => { hphase with }⟩

variable (h : S.Kept cx) (hpass : cx.pass = .setup)

include h

theorem Kept.asksFrom_pinExprOperand (hc : S.Names cx c → S.Phase cx e s →
      (s.Knows c ∨ c ∈ s.failed) ∨ S.seen (s.frames.map ArgumentFrame.callSite)) :
    S.AsksFrom cx e s (cx.pinExprOperand c) := by
  have hpublish {find : Attempt Operand} {p : Proxy} (hfind : S.AsksFrom cx e s find) :
      S.AsksFrom cx e s (do let o ← find; cx.publish p o; return o) := by
    have hrest (o : Operand) : (S.asking cx).Tries e 0 (do cx.publish p o; return o : Attempt Operand) :=
      asking_graded.tries_after (Account.tries_step pays_publish) fun _ => asking_graded.tries_pure
    exact asking_graded.triesFrom_bind trivial hfind hrest
  refine Attempt.ends_lift_bind fun x hx => asksFrom_memoized fun hnew => ?_
  have hx : cx.tree.expr? c = some x := Tree.expr_eq_ok.1 hx
  split
  · exact h.tries_constantOperand s trivial
  · exact hpublish (tries_externalOperand s trivial)
  · next p hkind hp =>
    exact hpublish (h.asksFrom_valueOperand fun hgroup hphase =>
      (hc ⟨x, p, hx, hkind, hp, hgroup⟩ hphase).resolve_left hnew)
  · split <;> exact asking_graded.tries_throw trivial s trivial
  · exact asking_graded.tries_throw trivial s trivial

include hpass

/-- A child that names a pin of the group has found its operand. -/
theorem Kept.known_child (hphase : S.Phase cx e s) (hchild : cx.tree.IsChild e c) (hnames : S.Names cx c) :
    (s.Knows c ∨ c ∈ s.failed) ∨ S.seen (s.frames.map ArgumentFrame.callSite) := by
  rcases h.settles with hall | ⟨-, hvalue⟩
  · exact .inr (hall _)
  · have huses := hnames.uses
    obtain ⟨x, p, hx, hkind, hp, hgroup⟩ := hnames
    refine hphase.children hchild (.value hpass (Tree.kind_eq hx) ?_ (Tree.pinOf_eq hx) (hvalue huses hx hkind))
    rw [hkind]
    rfl

theorem Kept.asksFrom_operandOf (hc : c = e ∨ cx.tree.IsChild e c) : S.AsksFrom cx e s (cx.operandOf c) := by
  refine Attempt.ends_lift_bind fun kind hkind => ?_
  split
  · refine asksFrom_memoized fun hnew => Attempt.ends_lift_bind fun children hchildren => ?_
    refine Attempt.ends_lift_bind fun found hfound => ?_
    cases found with
    | none => exact asking_graded.tries_throw trivial s trivial
    | some w =>
      refine h.asksFrom_pinExprOperand fun hnames hphase => ?_
      rcases hc with rfl | hchild
      · exact h.known_child hpass hphase (Tree.isChild_of_mem hchildren (Checked.mem_of_findM? hfound).1) hnames
      · exact .inr ((hphase.children hchild (.cached hkind)).resolve_left hnew)
  · refine h.asksFrom_pinExprOperand fun hnames hphase => ?_
    rcases hc with rfl | hchild
    · exact .inr (hphase.seen hnames.uses)
    · exact h.known_child hpass hphase hchild hnames

theorem Kept.asking_answers : (S.asking cx).Answers cx := by
  have hemit {P : Prop} (hemit : cx.pass = .emit) : P := by
    rw [hpass] at hemit
    cases hemit
  have hemits : (S.asking cx).Emits cx :=
    { asking_graded with
      of_lowers := by
        rintro e c s _ rfl
        exact asking_graded.refl e _
      warning := fun _ _ _ _ => ⟨rfl, fun hphase => { hphase with }⟩
      push := fun _ h => hemit h
      land := fun h => hemit h }
  exact
    { hemits with
      entry := fun he hkind hlower =>
        hemits.pays_lowerEntry he hlower (fun _ _ => ⟨rfl, fun hphase => { hphase with }⟩) hkind
      operand := fun _ hasks s _ => h.asksFrom_operandOf hpass hasks.self_or_child
      value := fun _ hasks s _ => h.asksFrom_valueOperand fun hgroup hphase => hphase.seen (hasks.uses hgroup)
      label := fun _ _ => h.tries_caseLabel _
      scratch := fun _ _ => h.tries_comparisonScratch
      watch := fun {e _} _ _ _ _ _ => by
        have hself : (S.asking cx).Tries e 0 (cx.operandOf e) := fun s _ => h.asksFrom_operandOf hpass (.inl rfl)
        refine asking_graded.tries_after hself fun o => Account.tries_lift_bind fun x _ => ?_
        split
        · exact asking_graded.tries_pure
        · refine Account.tries_lift_bind fun path _ => ?_
          split
          · refine asking_graded.tries_after h.tries_watchOperand fun mirror => Account.tries_step ?_
            exact Account.pays_modify fun _ => ⟨rfl, fun hphase => { hphase with }⟩
          · exact asking_graded.tries_pure }

end Expressions

/-! ## The walk -/

/-- Before an expression is lowered. What was met is provided for, or it is above the expression and being lowered. -/
structure Ready (S : Supply) (cx : Context) (e : ExprId) (s : State) : Prop where
  served : S.Served cx s.storage
  captured : Captured cx.tree.graph s.frames
  above : ∀ y ∈ s.visited, cx.Provided s y ∨ Relation.TransGen cx.tree.IsChild y e

/-- After an expression was lowered. -/
structure Done (S : Supply) (cx : Context) (e : ExprId) (s s' : State) : Prop where
  served : S.Served cx s'.storage
  captured : Captured cx.tree.graph s'.frames
  callStack : s'.callStack = s.callStack
  seen : S.Within cx e → S.seen s.callStack → S.seen (s.frames.map ArgumentFrame.callSite) →
    S.seen (s'.frames.map ArgumentFrame.callSite)

/-- While an expression is lowered under a call stack. -/
structure Entered (S : Supply) (cx : Context) (e : ExprId) (stack : CallStack) (s : State) : Prop where
  served : S.Served cx s.storage
  captured : Captured cx.tree.graph s.frames
  seen : S.Within cx e → S.seen stack → S.seen (s.frames.map ArgumentFrame.callSite)

/-- While its children are lowered. -/
structure Open (S : Supply) (cx : Context) (e : ExprId) (stack : CallStack) (done : List ExprId) (s : State) : Prop
    extends S.Entered cx e stack s where
  callStack : s.callStack = stack
  above : ∀ y ∈ s.visited, cx.Provided s y ∨ Relation.ReflTransGen cx.tree.IsChild y e
  met : ∀ c ∈ done, s.Met c

section Walk

variable (h : S.Kept cx) (hpass : cx.pass = .setup) {lower : ExprId → Step Unit} {stack outer : CallStack}
  {c : ExprId} {x : Expression}

include h

/-- The locals of a call site are other registers. -/
theorem Kept.pays_prepareLocals (site : CallStack) : (S.asking cx).Pays e 0 (cx.prepareLocals site) := by
  refine Account.pays_lift_bind fun function _ => ?_
  cases site.innermost with
  | none => exact asking_graded.pays_pure
  | some node => cases function with
    | none => exact asking_graded.pays_pure
    | some function =>
      refine asking_graded.pays_forM fun v _ s _ => Step.ends_bind.2 ?_
      have hlocal : (S.asking cx).Tries e 0 (cx.localOperand site function.name v) := h.tries_localOperand
      refine Step.Ends.mono (hlocal s trivial) fun r s1 h1 => ?_
      cases r with
      | ok _ => exact h1
      | error error => exact ⟨h1.1.1, fun hphase => { h1.1.2 hphase with }⟩

include hpass

theorem Kept.pays_initializeLocals (stack : CallStack) : (S.asking cx).Pays e 0 (cx.initializeLocals stack) := by
  refine asking_graded.pays_forM fun site _ s _ => ?_
  unfold Context.initializeSite
  rw [hpass]
  refine Step.ends_get_bind.2 ?_
  dsimp only
  split
  · exact asking_graded.refl e s
  · have hmark : (S.asking cx).moves e 0 s { s with prepared := site :: s.prepared } :=
      ⟨rfl, fun hphase => { hphase with }⟩
    refine Step.ends_bind.2 (Step.ends_set.2 ?_)
    exact (h.pays_prepareLocals site _ trivial).mono fun _ _ h1 => asking_graded.trans hmark h1

/-- The frames are those of the call stack that was entered. -/
theorem Kept.ends_enter (hs : S.Served cx s.storage) (hframes : Captured cx.tree.graph s.frames) :
    Step.Ends (fun _ => True) s (cx.enter stack) fun _ s' => S.Served cx s'.storage ∧
      Captured cx.tree.graph s'.frames ∧ s'.frames.map ArgumentFrame.callSite = stack ∧ s'.callStack = stack := by
  refine Step.ends_bind.2 ((ends_enterFrames hframes).mono ?_)
  rintro _ s1 ⟨hcaptured, hsites, heq⟩
  -- An expression that is not there asks for nothing.
  have hphase : S.Phase cx cx.tree.exprs.length s1 := by
    have hmissing : cx.tree.expr? cx.tree.exprs.length = none := by simp [Tree.expr?]
    refine ⟨?_, hcaptured, ?_, ?_⟩
    · rw [heq]
      exact hs
    · rintro ⟨x, -, -, hx, -⟩
      cases hmissing.symm.trans hx
    · rintro v ⟨x, hx, -⟩
      cases hmissing.symm.trans hx
  have hlocals : (S.asking cx).Pays cx.tree.exprs.length 0 (cx.initializeLocals stack) :=
    h.pays_initializeLocals hpass stack
  refine Step.ends_bind.2 ((hlocals s1 trivial).mono fun _ s2 h2 => ?_)
  exact ⟨(h2.2 hphase).served, (h2.2 hphase).captured, by rw [← hsites, ← h2.1], rfl⟩

omit h hpass in
theorem Within.child (hwithin : S.Within cx e) (hc : cx.tree.IsChild e c) : S.Within cx c :=
  fun d x p hd => hwithin d x p (.head hc hd)

omit hpass
omit h in
theorem Open.child {done : List ExprId} {s' : State} (ho : S.Open cx e stack done s) (hc : cx.tree.IsChild e c)
    (hdone : S.Done cx c s s') (hprovides : cx.Provides s s') (hmet : s'.Met c) :
    S.Open cx e stack (done ++ [c]) s' where
  served := hdone.served
  captured := hdone.captured
  callStack := hdone.callStack.trans ho.callStack
  above y hy := by
    rcases hprovides.provided y hy with hy | hnew
    · exact (ho.above y hy).imp_left fun hold => hold.mono hprovides.toRemembers
    · exact .inl hnew
  seen hwithin hstack := hdone.seen (hwithin.child hc) (ho.callStack ▸ hstack)
    (ho.seen hwithin hstack)
  met c' hc' := by
    rcases List.mem_append.1 hc' with hc' | hc'
    · exact hprovides.toRemembers.met (ho.met c' hc')
    · rw [List.mem_singleton.1 hc']
      exact hmet

omit h in
theorem Open.ready {done : List ExprId} (ho : S.Open cx e stack done s) (hc : cx.tree.IsChild e c) :
    S.Ready cx c s where
  served := ho.served
  captured := ho.captured
  above y hy := (ho.above y hy).imp_right fun hy => .tail' hy hc

/-- A way to lower expressions keeps the register as it has to be. -/
def Walks (S : Supply) (cx : Context) (lower : ExprId → Step Unit) : Prop :=
  ∀ {e s}, S.Ready cx e s → Step.Ends (fun _ => True) s (lower e) fun _ s' => S.Done cx e s s'

omit h in
theorem ends_lowerChildren (hlower : S.Walks cx lower) (hprovides : (providing cx).Walks lower)
    (hx : cx.tree.expr? e = some x) (ho : S.Open cx e stack [] s) :
    Step.Ends (fun _ => True) s (cx.lowerChildren lower e) fun _ s' => S.Open cx e stack x.children s' := by
  unfold Context.lowerChildren
  rw [Tree.children_eq hx]
  refine Step.ends_bind.2 (Step.ends_lift.2 (Step.ends_forM (S.Open cx e stack) ho ?_))
  intro done c rest heq s1 h1
  have hc : cx.tree.IsChild e c := ⟨x, hx, by rw [heq]; simp⟩
  refine Checked.Ends.mono ((hlower (h1.ready hc)).and (hprovides c trivial s1 trivial)) fun r h2 => ?_
  exact h1.child hc h2.1 h2.2.1 h2.2.2.1

/-- In a tree without cycles, the children of an expression are finished when it asks for operands. -/
theorem Kept.phase (hx : cx.tree.expr? e = some x) (hstack : stack = (x.proxy.map Proxy.callStack).getD outer)
    (ho : S.Open cx e stack x.children s) :
    S.Phase cx e s where
  served := ho.served
  captured := ho.captured
  seen huses := by
    have hwithin := h.within huses
    obtain ⟨x', target, p, hx', hp, -⟩ := huses
    cases hx.symm.trans hx'
    rw [hp] at hstack
    exact ho.seen hwithin (hstack ▸ hwithin e x target .refl hx hp)
  children {v} hchild hasks := by
    rcases h.settles with hall | ⟨hacyclic, -⟩
    · exact .inr (hall _)
    · refine .inl ?_
      obtain ⟨x', hx', hmem⟩ := hchild
      cases hx.symm.trans hx'
      rcases ho.met v hmem with hvisited | hfailed
      · rcases ho.above v hvisited with hprovided | habove
        · exact hprovided.settled.symm.imp_left fun hsettled => hsettled.operand hasks
        · exact absurd (.tail' habove ⟨x, hx, hmem⟩) (hacyclic v)
      · exact .inr hfailed

include hpass

/-- What is done for an expression after its call stack was entered. -/
theorem Kept.ends_lowerExpr (hlower : S.Walks cx lower) (hprovides : (providing cx).Walks lower)
    (hx : cx.tree.expr? e = some x) (hstack : stack = (x.proxy.map Proxy.callStack).getD outer)
    (ho : S.Open cx e stack [] s) :
    Attempt.Ends (fun _ => True) s (cx.lowerExpr lower e) (fun _ => S.Entered cx e stack)
      fun _ => S.Entered cx e stack := by
  have hidle : (S.asking cx).Walks idle := fun _ _ _ _ => rfl
  refine Context.ends_lowerExpr_of_own hpass ho.toEntered (fun _ => ho.toEntered) ?_
  refine (ends_lowerChildren hlower hprovides hx ho).mono fun _ s1 h1 => ?_
  have hphase := h.phase hx hstack h1
  have hentered {n : Nat} {s2 : State} (h2 : (S.asking cx).moves e n s1 s2) : S.Entered cx e stack s2 :=
    ⟨(h2.2 hphase).served, (h2.2 hphase).captured, fun hwithin hseen => h2.1 ▸ h1.seen hwithin hseen⟩
  exact ((h.asking_answers hpass).tries_lowerExpr trivial hidle s1 trivial).mono (fun _ _ h2 => hentered h2)
    fun _ _ h2 => hentered h2.1

omit h hpass in
/-- Whether an expression fails or not, the walk goes on under the call stack outside of it. -/
theorem Entered.ends_settle {r : Except LowerError Unit} (ho : S.Entered cx e stack s) :
    Step.Ends (fun _ => True) s (Coupling.settle e outer r) fun _ s' =>
      S.Entered cx e stack s' ∧ s'.callStack = outer := by
  cases r with
  | ok _ => exact ⟨{ ho with }, rfl⟩
  | error error =>
    unfold Coupling.settle fail
    refine Step.ends_bind.2 (Step.ends_bind.2 (Step.ends_modify.2 ?_))
    split
    · exact ⟨{ ho with }, rfl⟩
    · exact ⟨{ ho with }, rfl⟩

/-- When an expression is entered, it joins those above that are being lowered. -/
theorem Kept.opens (hs : S.Ready cx e s) (stack : CallStack) :
    Step.Ends (fun _ => True) { s with visited := e :: s.visited } (cx.enter stack) fun _ s' =>
      S.Open cx e stack [] s' := by
  have hprovide := providing_lawful hpass
  have henter : (providing cx).Pays e 0 (cx.enter stack) :=
    hprovide.pays_after (hprovide.pays_enterFrames _) fun _ => hprovide.pays_after (hprovide.pays_initializeLocals _)
      fun _ => Account.pays_modify fun _ => hprovide.aside rfl
  refine Checked.Ends.mono (Checked.Ends.and
    (h.ends_enter (s := { s with visited := e :: s.visited }) hpass hs.served hs.captured) (henter _ trivial)) ?_
  rintro ⟨_, s1⟩ ⟨⟨hserved, hcaptured, hsites, hcall⟩, hprovided, -⟩
  refine ⟨⟨hserved, hcaptured, fun _ hseen => hsites ▸ hseen⟩, hcall, fun y hy => ?_, nofun⟩
  rcases hprovided.provided y hy with hold | hnew
  · rcases List.mem_cons.1 hold with rfl | hold
    · exact .inr .refl
    · have hmet : s.Remembers { s with visited := e :: s.visited } :=
        { State.Remembers.refl s with visited := List.subset_cons_self _ _ }
      exact (hs.above y hold).imp (fun hy => (hy.mono hmet).mono hprovided.toRemembers)
        Relation.TransGen.to_reflTransGen
  · exact .inl hnew

theorem Kept.ends_lowerUnder (hlower : S.Walks cx lower) (hprovides : (providing cx).Walks lower)
    (hs : S.Ready cx e s) :
    Step.Ends (fun _ => True) { s with visited := e :: s.visited } (cx.lowerUnder lower e) fun _ s' =>
      S.Done cx e s s' := by
  have hends {x : Expression} {stack : CallStack} (hx : cx.tree.expr? e = some x)
      (hstack : stack = (x.proxy.map Proxy.callStack).getD s.callStack) :
      Step.Ends (fun _ => True) { s with visited := e :: s.visited } (cx.enter stack >>= fun _ =>
        (cx.lowerExpr lower e).run >>= Coupling.settle e s.callStack) fun _ s' => S.Done cx e s s' := by
    refine Step.ends_bind.2 ((h.opens hpass hs stack).mono fun _ s1 h1 => ?_)
    refine Step.ends_bind.2 (Step.Ends.mono (h.ends_lowerExpr hpass hlower hprovides hx hstack h1) fun r s2 h2 => ?_)
    have h2 : S.Entered cx e stack s2 := by cases r <;> exact h2
    refine h2.ends_settle.mono fun _ s3 h3 => ?_
    obtain ⟨h3, hcall⟩ := h3
    refine ⟨h3.served, h3.captured, hcall, fun hwithin hseen _ => h3.seen hwithin ?_⟩
    rw [hstack]
    cases hp : x.proxy with
    | none => exact hseen
    | some p => exact hwithin e x p .refl hx hp
  unfold Step.Ends
  rw [Coupling.lowerUnder_apply]
  cases hx : cx.tree.expr e with
  | error f => trivial
  | ok x => exact hends (Tree.expr_eq_ok.1 hx) rfl

theorem Kept.walks_lowerOnce (hlower : S.Walks cx lower) (hprovides : (providing cx).Walks lower) :
    S.Walks cx (cx.lowerOnce lower) := by
  intro e s hs
  refine Step.ends_get_bind.2 ?_
  split
  · exact ⟨hs.served, hs.captured, rfl, fun _ _ hseen => hseen⟩
  · refine Step.ends_bind.2 (Step.ends_set.2 (Step.ends_bind.2 ?_))
    refine (h.ends_lowerUnder hpass hlower hprovides hs).mono fun _ s1 h1 => Step.ends_modify.2 ?_
    exact { h1 with }

theorem Kept.walks_lowerWithin (depth : Nat) : S.Walks cx (cx.lowerWithin depth) := by
  induction depth with
  | zero => exact fun _ => trivial
  | succ depth ih => exact h.walks_lowerOnce hpass ih ((providing_lawful hpass).walks_lowerWithin depth)

/-- After the setup pass the register has one of the shapes, if it is there. -/
theorem Kept.served_of_lowerRoots {s' : State} (hs : S.Served cx s.storage)
    (hrun : cx.lowerRoots s = .ok ((), s')) : S.Served cx s'.storage := by
  have hroots : Step.Ends (fun _ => True) s.restarted (cx.tree.roots.forM cx.lower) fun _ s' =>
      S.Served cx s'.storage ∧ Captured cx.tree.graph s'.frames ∧ ∀ y ∈ s'.visited, cx.Provided s' y := by
    refine Step.ends_forM (fun _ s' => S.Served cx s'.storage ∧ Captured cx.tree.graph s'.frames ∧
      ∀ y ∈ s'.visited, cx.Provided s' y) ⟨hs, nofun, nofun⟩ ?_
    rintro done e rest - s1 ⟨hserved, hcaptured, hmet⟩
    have hready : S.Ready cx e s1 := ⟨hserved, hcaptured, fun y hy => .inl (hmet y hy)⟩
    refine Checked.Ends.mono ((h.walks_lowerWithin hpass _ hready).and
      ((providing_lawful hpass).walks_lowerWithin _ e trivial s1 trivial)) fun r h2 => ?_
    refine ⟨h2.1.served, h2.1.captured, fun y hy => ?_⟩
    rcases h2.2.1.provided y hy with hold | hnew
    · exact (hmet y hold).mono h2.2.1.toRemembers
    · exact hnew
  exact (Checked.Ends.of_ok (a := ((), s')) hroots hrun).1

end Walk

end Supply
end Lowering
end NodeGraph
