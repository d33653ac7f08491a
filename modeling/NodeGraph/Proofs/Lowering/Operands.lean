import NodeGraph.Proofs.Lowering.Shapes
import NodeGraph.Proofs.Lowering.Sites
import NodeGraph.Proofs.Lowering.Sound
import NodeGraph.Proofs.Tree.Valid
import NodeGraph.Proofs.Types.Nesting

/-!
# Finding operands

In a valid tree every function that finds an operand comes to a result or to an error, quietly, and an
operand it finds fits the storage. Only the types can get in the way: a fault is met if one of them
contains itself. The operand of an expression is kept, and found again.
-/
namespace NodeGraph.Lowering

variable {F : Fault → Prop} {s : State} {key : String} {live o : Operand} {space : MemorySpace}
  {callSite : CallStack}

/-- What a compilation may assume: the tree is valid, shared proxies exist, and the faults of types
are tolerated. -/
structure Context.Ready (cx : Context) (F : Fault → Prop) : Prop where
  tree : cx.tree.Valid
  sharing : cx.sharing.ExistsIn cx.tree.graph
  types : cx.env.types.Tolerated F

theorem mem_of_lookup {κ ν : Type} [BEq κ] [LawfulBEq κ] {l : List (κ × ν)} {k : κ} {v : ν}
    (h : l.lookup k = some v) : (k, v) ∈ l := by
  obtain ⟨l₁, l₂, rfl, -⟩ := List.lookup_eq_some_iff.1 h
  simp

/-! ## Registers -/

section Registers

variable {t : Tree} {env : Environment} {α : Type} {pin : Option PinId}

theorem resolves_typed {result : Typed α} (hs : s.Sound t env) (hF : ∀ fault, result = .error fault → F fault) :
    Resolves t env F s (typed pin key result) fun _ _ => True := by
  unfold typed
  refine Attempt.ends_bind.2 (Attempt.ends_lift.2 ?_)
  cases hr : result.run with
  | error fault => exact hF fault hr
  | ok r =>
    rw [Checked.ends_ok]
    cases r with
    | ok a => exact Resolves.pure hs trivial
    | error cause => exact Resolves.throw hs (by simp)

theorem resolves_allocateWith {build : Typed Register} (hs : s.Sound t env)
    (hF : ∀ fault, build = .error fault → F fault) :
    Resolves t env F s (allocateWith key space pin build) fun o s' => s'.Holds env o := by
  unfold allocateWith
  refine .get_bind ?_
  split
  · next o ho => exact .pure hs (hs.keyed _ (mem_of_lookup ho)).1
  · refine (resolves_typed hs hF).bind fun register s1 h1 _ _ => ?_
    refine .get_bind ?_
    split
    · exact .throw h1 (by simp)
    · next storage o hadd =>
      obtain ⟨hle, hholds, hkeyed⟩ := Storage.addRegister_spec hadd
      have hgrown : State.Sound t env { s1 with storage := storage } := by
        refine h1.grow hle fun entry he => ?_
        rw [hkeyed] at he
        rcases List.mem_cons.1 he with rfl | he
        · exact ⟨hholds, Storage.named_addRegister hadd⟩
        · exact ⟨(h1.keyed entry he).1.mono hle, (h1.keyed entry he).2.mono hle⟩
      exact .modify_bind hgrown { Quiet.refl s1 with storage := hle } (.pure hgrown hholds)

/-- What is known of a finder is known besides. -/
theorem Resolves.finds {m : Attempt α} {P : α → State → Prop} {Q : Storage → α → Prop} {cx : Context}
    (h : Resolves t env F s m P) (hm : cx.Finds m Q) :
    Resolves t env F s m fun a s' => P a s' ∧ Q s'.storage a ∧ s'.operands = s.operands := by
  refine Attempt.Ends.mono (Attempt.Ends.and h (hm.ends s)) ?_ fun _ _ he => he
  rintro a s' ⟨⟨hs, hq, hp⟩, ⟨-, hsame⟩, ha⟩
  exact ⟨hs, hq, hp, ha, by rw [hsame]⟩

end Registers

variable {cx : Context} {p : Proxy} {e : ExprId}

theorem Context.Ready.resolves_allocate (h : cx.Ready F) (hs : s.Sound cx.tree cx.env) (key : String)
    (space : MemorySpace) (spec : RegisterSpec) :
    Resolves cx.tree cx.env F s (cx.allocate key space spec) fun o s' => s'.Holds cx.env o :=
  resolves_allocateWith hs fun _ hf => h.types.register hf

/-- A register that is asked for by its key has the key for a name. -/
theorem Context.Ready.resolves_named (h : cx.Ready F) (hs : s.Sound cx.tree cx.env) {spec : RegisterSpec}
    (hmakes : Makes cx.env.types cx.tree cx.sharing space key (cx.env.types.buildRegister key spec)) :
    Resolves cx.tree cx.env F s (cx.allocate key space spec) fun o s' =>
      s'.Holds cx.env o ∧ s'.storage.Named key o := by
  refine Attempt.Ends.mono ((h.resolves_allocate hs key space spec).finds (finds_allocate hmakes)) ?_
    fun _ _ he => he
  rintro o s' ⟨hsound, hquiet, hholds, hkey, -⟩
  exact ⟨hsound, hquiet, hholds, (hsound.keyed _ (mem_of_lookup hkey)).2⟩

theorem Context.Ready.resolves_caseLabel (h : cx.Ready F) (hs : s.Sound cx.tree cx.env) (value : Nat) :
    Resolves cx.tree cx.env F s (cx.caseLabel value) fun o s' =>
      s'.Holds cx.env o ∧ s'.storage.Named s!"Const::int32::{value}" o :=
  h.resolves_named hs (.label value)

theorem Context.Ready.resolves_comparisonScratch (h : cx.Ready F) (hs : s.Sound cx.tree cx.env) :
    Resolves cx.tree cx.env F s cx.comparisonScratch fun o s' =>
      s'.Holds cx.env o ∧ s'.storage.Named "Scratch::Compare" o :=
  h.resolves_named hs .scratch

/-! ## Pins -/

theorem exists_localKey {g : Graph} (hc : callSite.ExistsIn g) (name : String) :
    ∃ key, localKey g callSite name = .ok key := by
  obtain ⟨text, htext⟩ := CallStack.exists_pathPrefix hc
  exact ⟨text ++ "Local::" ++ name, by rw [localKey, htext]; rfl⟩

theorem lt_of_externalIndex? {env : Environment} {name : String} {index : Nat}
    (h : env.externalIndex? name = some index) : index < env.externals.length :=
  (List.findIdx?_eq_some_iff_getElem.1 h).1

namespace Context.Ready

section

variable (h : cx.Ready F)

include h

theorem resolves_localOperand (hs : s.Sound cx.tree cx.env) (hc : callSite.ExistsIn cx.tree.graph)
    (function : String) (v : LocalVariable) :
    Resolves cx.tree cx.env F s (cx.localOperand callSite function v) fun o s' =>
      s'.Holds cx.env o := by
  unfold Context.localOperand
  refine (h.resolves_allocate hs _ _ _).bind fun _ s1 h1 _ _ => ?_
  obtain ⟨key, hkey⟩ := exists_localKey hc v.name
  exact .ok_bind hkey (h.resolves_allocate h1 _ _ _)

/-- A pin of a proxy that exists is there, and so is its node. -/
theorem exists_pin_node (hp : p.existsIn cx.tree.graph = true) {id : PinId} (hid : p.pin? = some id) : ∃ pin node,
      cx.tree.graph.pin? id = some pin ∧ cx.tree.graph.pin id = .ok pin ∧
        cx.tree.graph.node pin.node = .ok node := by
  obtain ⟨pin, hpin⟩ := Proxy.exists_pin hp hid
  obtain ⟨node, hnode⟩ := h.tree.graph.owned hpin
  exact ⟨pin, node, hpin, Graph.pin_eq_ok.2 hpin, Graph.node_eq_ok.2 hnode⟩

theorem resolves_allocateFor (hs : s.Sound cx.tree cx.env) (hp : p.existsIn cx.tree.graph = true) (key : String)
    (space : MemorySpace) :
    Resolves cx.tree cx.env F s (cx.allocateFor key space p) fun o s' => s'.Holds cx.env o := by
  have hspec : ∃ spec, pinSpec cx.tree.graph s.frames p = .ok spec := by
    unfold pinSpec
    cases hid : p.pin? with
    | none => exact ⟨_, rfl⟩
    | some id =>
      obtain ⟨pin, node, -, hpin, hnode⟩ := h.exists_pin_node hp hid
      simp only [hpin, hnode, Checked.ok_bind]
      exact ⟨_, rfl⟩
  obtain ⟨spec, hspec⟩ := hspec
  exact .get_bind (.ok_bind hspec (h.resolves_allocate hs _ _ _))

theorem exists_isVariablePin (hp : p.existsIn cx.tree.graph = true) :
    ∃ b, isVariablePin cx.tree.graph p = .ok b := by
  unfold isVariablePin
  cases hid : p.pin? with
  | none => exact ⟨false, rfl⟩
  | some id =>
    obtain ⟨pin, node, -, hpin, hnode⟩ := h.exists_pin_node hp hid
    simp only [hpin, hnode, Checked.ok_bind]
    split <;> exact ⟨_, rfl⟩

section

variable (hs : s.Sound cx.tree cx.env) (hp : p.existsIn cx.tree.graph = true)

include hs hp

theorem resolves_variableOperand :
    Resolves cx.tree cx.env F s (cx.variableOperand p) fun o s' => s'.Holds cx.env o := by
  unfold Context.variableOperand
  dsimp only
  split
  · exact .throw hs (by simp)
  · next id hid =>
    obtain ⟨pin, node, -, hpin, hnode⟩ := h.exists_pin_node hp hid
    refine .ok_bind hpin (.ok_bind hnode ?_)
    split
    · exact h.resolves_allocateFor hs hp _ _
    · next name _ _ =>
      obtain ⟨r, hr, hsite⟩ := cx.tree.exists_findLocal (Proxy.callStack_existsIn hp) name
      refine .ok_bind hr ?_
      cases r with
      | some access => exact h.resolves_localOperand hs (hsite access rfl) _ _
      | none =>
        dsimp only
        split
        · next index hindex => exact .pure hs (Storage.holds_external (lt_of_externalIndex? hindex))
        · exact .throw hs (by simp)
    · exact .throw hs (by simp)

theorem resolves_rootOperand :
    Resolves cx.tree cx.env F s (cx.rootOperand p) fun o s' => s'.Holds cx.env o := by
  unfold Context.rootOperand
  dsimp only
  have hgroup := fun q hq => Sharing.existsIn_of_mem_group (q := q) h.sharing hp hq
  obtain ⟨r, hr, hmem⟩ := Checked.exists_findM? fun q hq => h.exists_isVariablePin (hgroup q hq)
  refine .ok_bind hr ?_
  cases r with
  | some member => exact h.resolves_variableOperand hs (hgroup member (hmem member rfl).1)
  | none =>
    have hleast := Sharing.existsIn_representative h.sharing hp
    obtain ⟨path, hpath⟩ := h.tree.graph.exists_path hleast
    exact .ok_bind hpath (h.resolves_allocateFor hs hleast _ _)

theorem resolves_valueOperand :
    Resolves cx.tree cx.env F s (cx.valueOperand p) fun o s' => s'.Holds cx.env o := by
  unfold Context.valueOperand
  dsimp only
  split
  · exact .throw hs (by simp)
  · next id hid =>
    obtain ⟨pin, node, hid, hpin, hnode⟩ := h.exists_pin_node hp hid
    refine .ok_bind hpin ?_
    split
    · exact h.resolves_rootOperand hs hp
    · obtain ⟨root, hroot, rootPin, hrootPin⟩ := h.tree.graph.exists_rootPin hid
      refine .ok_bind hroot ?_
      refine (h.resolves_rootOperand hs (Proxy.existsIn_withPin hp hrootPin)).bind
        fun base s1 h1 _ hbase => ?_
      obtain ⟨segments, hsegments⟩ := h.tree.graph.exists_propertySegments hid
      refine .get_bind (.ok_bind hsegments ?_)
      split
      · obtain ⟨path, hpath⟩ := h.tree.graph.exists_path hp
        exact .ok_bind hpath (.throw h1 (by simp))
      · next storage o hadd =>
        obtain ⟨hle, hholds, hkeyed⟩ := Storage.addPath_spec hbase hadd
        have hgrown : State.Sound cx.tree cx.env { s1 with storage := storage } := by
          refine h1.grow hle fun entry he => ?_
          rw [hkeyed] at he
          exact ⟨(h1.keyed entry he).1.mono hle, (h1.keyed entry he).2.mono hle⟩
        exact .modify_bind hgrown { Quiet.refl s1 with storage := hle } (.pure hgrown hholds)

theorem resolves_constantOperand :
    Resolves cx.tree cx.env F s (cx.constantOperand p) fun o s' => s'.Holds cx.env o := by
  unfold Context.constantOperand
  dsimp only
  split
  · exact .throw hs (by simp)
  · next id hid =>
    obtain ⟨pin, node, -, hpin, -⟩ := h.exists_pin_node hp hid
    obtain ⟨path, hpath⟩ := h.tree.graph.exists_path hp
    exact .ok_bind hpin (.ok_bind hpath (h.resolves_allocateFor hs hp _ _))

theorem resolves_watchOperand :
    Resolves cx.tree cx.env F s (cx.watchOperand p) fun o s' => s'.Holds cx.env o := by
  unfold Context.watchOperand
  dsimp only
  split
  · exact .throw hs (by simp)
  · next id hid =>
    obtain ⟨pin, node, -, hpin, -⟩ := h.exists_pin_node hp hid
    obtain ⟨path, hpath⟩ := h.tree.graph.exists_path (Sharing.existsIn_representative h.sharing hp)
    refine .ok_bind hpin (.ok_bind hpath ?_)
    exact resolves_allocateWith hs fun _ hf => h.types.watch hf

theorem resolves_externalOperand :
    Resolves cx.tree cx.env F s (cx.externalOperand p) fun o s' => s'.Holds cx.env o := by
  unfold Context.externalOperand
  dsimp only
  split
  · exact .throw hs (by simp)
  · next id hid =>
    obtain ⟨pin, node, -, hpin, hnode⟩ := h.exists_pin_node hp hid
    refine .ok_bind hpin ?_
    split
    · have hname : ∃ name, cx.tree.externalName pin = .ok name := by
        unfold Tree.externalName
        rw [hnode, Checked.ok_bind]
        split <;> exact ⟨_, rfl⟩
      obtain ⟨name, hname⟩ := hname
      refine .ok_bind hname ?_
      split
      · next index hindex => exact .pure hs (Storage.holds_external (lt_of_externalIndex? hindex))
      · exact .throw hs (by simp)
    · obtain ⟨path, hpath⟩ := h.tree.graph.exists_path hp
      exact .ok_bind hpath (.throw hs (by simp))

end

end

/-! ## Expressions -/

end Context.Ready

section Memoized

variable {t : Tree} {env : Environment} {mirror : Operand}

/-- The operand of `e` is kept, if finding it does not. It changes no operand that finding it does not
change. -/
theorem resolves_memoized {find : Attempt Operand} {K : ExprId → Prop} (hs : s.Sound t env) (he : K e)
    (hfind : Resolves t env F s find fun o s' =>
      s'.Holds env o ∧ ∀ {y}, K y → s'.operands.lookup y = s.operands.lookup y) :
    Resolves t env F s (memoized e find) fun o s' => s'.Holds env o ∧ s'.operands.lookup e = some o ∧
      ∀ {y}, K y → y ≠ e → s'.operands.lookup y = s.operands.lookup y := by
  unfold memoized
  refine .get_bind ?_
  split
  · next o ho => exact .pure hs ⟨hs.operands _ (mem_of_lookup ho), ho, fun _ _ => rfl⟩
  · next hnone =>
    split
    · next hfailed =>
      exact ⟨hs, .refl s, fun _ hnil => by rw [hnil] at hfailed; exact absurd hfailed (by simp)⟩
    · refine hfind.bind fun o s1 h1 _ ⟨ho, hsame⟩ => ?_
      have hkept : State.Sound t env { s1 with operands := (e, o) :: s1.operands } := by
        refine { h1 with operands := fun entry he => ?_ }
        rcases List.mem_cons.1 he with rfl | he
        · exact ho
        · exact h1.operands entry he
      have hother {y : ExprId} (hy : y ≠ e) : ((e, o) :: s1.operands).lookup y = s1.operands.lookup y := by
        rw [List.lookup_cons, beq_false_of_ne hy]
      have hquiet : Quiet s1 { s1 with operands := (e, o) :: s1.operands } := by
        refine { Quiet.refl s1 with operands := fun {y o'} ho' => ?_ }
        refine (hother ?_).trans ho'
        rintro rfl
        rw [hsame he, hnone] at ho'
        cases ho'
      refine .modify_bind hkept hquiet (.pure hkept ⟨ho, List.lookup_cons_self, fun hK hy => ?_⟩)
      exact (hother hy).trans (hsame hK)

/-- A mirror was there before, or is the one added. -/
theorem mem_addMirror {mirrors : SortedMap Operand (List Operand)} {entry : Operand × List Operand}
    (hentry : entry ∈ (addMirror mirrors live mirror).toList) (ho : o ∈ entry.2) :
    (∃ old ∈ mirrors.toList, o ∈ old.2) ∨ o = mirror := by
  have hpresent (h : o ∈ (mirrors.get? live).getD []) : ∃ old ∈ mirrors.toList, o ∈ old.2 := by
    cases hget : mirrors.get? live with
    | none => simp [hget] at h
    | some present => exact ⟨_, SortedMap.mem_of_get? hget, by simpa [hget] using h⟩
  rcases SortedMap.mem_insert hentry with rfl | hentry
  · dsimp only at ho
    split at ho
    · exact .inl (hpresent ho)
    · exact (List.mem_append.1 ho).imp hpresent List.mem_singleton.1
  · exact .inl ⟨entry, hentry, ho⟩

theorem sound_addMirror (hs : s.Sound t env) (hlive : s.Holds env live) (hmirror : s.Holds env mirror)
    (hwatch : s.storage.Mirror t.graph mirror) :
    State.Sound t env { s with mirrors := addMirror s.mirrors live mirror } := by
  refine { hs with mirrors := fun entry he => ⟨?_, fun m hm => ?_⟩, watched := fun entry he m hm => ?_ }
  · rcases SortedMap.mem_insert he with rfl | he
    · exact hlive
    · exact (hs.mirrors entry he).1
  · rcases mem_addMirror he hm with ⟨old, hold, hm⟩ | rfl
    · exact (hs.mirrors old hold).2 m hm
    · exact hmirror
  · rcases mem_addMirror he hm with ⟨old, hold, hm⟩ | rfl
    · exact hs.watched old hold m hm
    · exact hwatch

end Memoized

namespace Context.Ready

theorem ends_publish (h : cx.Ready F) (hs : s.Sound cx.tree cx.env) (hp : p.existsIn cx.tree.graph = true)
    (ho : s.Holds cx.env o) :
    Step.Ends F s (cx.publish p o) fun _ s' =>
      s'.Sound cx.tree cx.env ∧ Quiet s s' ∧ s'.Holds cx.env o ∧ s'.operands = s.operands := by
  unfold Context.publish
  obtain ⟨path, hpath⟩ := h.tree.graph.exists_path hp
  rw [Step.ends_bind, Step.ends_lift, hpath, Checked.ends_ok, Step.ends_modify]
  refine ⟨{ hs with pinPaths := fun entry he => ?_ }, { Quiet.refl s with }, ho, rfl⟩
  rcases SortedMap.mem_insert he with rfl | he
  · exact ho
  · exact hs.pinPaths entry he

theorem resolves_pinExprOperand (h : cx.Ready F) (hs : s.Sound cx.tree cx.env)
    (he : e < cx.tree.exprs.length) :
    Resolves cx.tree cx.env F s (cx.pinExprOperand e) fun o s' => s'.Holds cx.env o ∧
      s'.operands.lookup e = some o ∧ ∀ {y}, y ≠ e → s'.operands.lookup y = s.operands.lookup y := by
  obtain ⟨x, hx⟩ := Tree.exists_expr he
  unfold Context.pinExprOperand
  refine .ok_bind (Tree.expr_eq_ok.2 hx) (.mono (resolves_memoized (K := fun _ => True) hs trivial ?_)
    fun o s' h => ⟨h.1, h.2.1, h.2.2 trivial⟩)
  have hpublish : ∀ {p : Proxy} {find : Attempt Operand} {Q : Storage → Operand → Prop},
      p.existsIn cx.tree.graph = true → cx.Finds find Q →
      (Resolves cx.tree cx.env F s find fun o s' => s'.Holds cx.env o) →
      Resolves cx.tree cx.env F s (do let o ← find; cx.publish p o; return o) fun o s' =>
        s'.Holds cx.env o ∧ ∀ {y}, True → s'.operands.lookup y = s.operands.lookup y := by
    intro p find Q hp hfinds hfind
    refine (hfind.finds hfinds).bind fun o s1 h1 _ ⟨ho, _, hsame⟩ => ?_
    refine (Resolves.step (h.ends_publish h1 hp ho)).bind fun _ s2 h2 _ ⟨ho, hsame'⟩ => ?_
    exact .pure h2 ⟨ho, fun _ => by rw [hsame', hsame]⟩
  split
  · next p _ hp =>
    exact ((h.resolves_constantOperand hs (h.tree.proxy hx hp)).finds finds_constantOperand).mono
      fun o s' h => ⟨h.1, fun _ => by rw [h.2.2]⟩
  · next p _ hp =>
    exact hpublish (h.tree.proxy hx hp) finds_externalOperand
      (h.resolves_externalOperand hs (h.tree.proxy hx hp))
  · next p _ hp =>
    exact hpublish (h.tree.proxy hx hp) finds_valueOperand
      (h.resolves_valueOperand hs (h.tree.proxy hx hp))
  · split <;> exact .throw hs (by simp)
  · exact .throw hs (by simp)

theorem resolves_operandOf (h : cx.Ready F) (hs : s.Sound cx.tree cx.env)
    (he : e < cx.tree.exprs.length) :
    Resolves cx.tree cx.env F s (cx.operandOf e) fun o s' =>
      s'.Holds cx.env o ∧ s'.operands.lookup e = some o := by
  obtain ⟨x, hx⟩ := Tree.exists_expr he
  unfold Context.operandOf
  refine .ok_bind (Tree.kind_eq hx) ?_
  split
  · next hcached =>
    obtain ⟨r, hr, hchild⟩ := h.tree.exists_childOfKind hx ExprKind.isValue
    refine (resolves_memoized (K := (· = e)) hs rfl
      (.ok_bind (Tree.children_eq hx) (.ok_bind hr ?_))).mono fun o s' h => ⟨h.1, h.2.1⟩
    cases r with
    | some child =>
      obtain ⟨hc, y, hy, hvalue⟩ := hchild child rfl
      -- A cached value is not its own value child, so its operand is not found with that of the child.
      have hne : e ≠ child := by
        rintro rfl
        rw [hx] at hy
        cases hy
        rw [hcached] at hvalue
        cases hvalue
      refine (h.resolves_pinExprOperand hs (h.tree.children hc)).mono fun o s' h => ⟨h.1, ?_⟩
      rintro y rfl
      exact h.2.2 hne
    | none => exact .throw hs (by simp)
  · exact (h.resolves_pinExprOperand hs he).mono fun o s' h => ⟨h.1, h.2.1⟩

theorem resolves_requiredVar (h : cx.Ready F) (hs : s.Sound cx.tree cx.env)
    (he : e < cx.tree.exprs.length) (pin : String) :
    Resolves cx.tree cx.env F s (cx.requiredVar e pin) fun var s' =>
      s' = s ∧ cx.tree.IsChild e var ∧ cx.tree.varForPin e pin = .ok (some var) := by
  unfold Context.requiredVar
  obtain ⟨r, hr, hchild⟩ := h.tree.exists_varForPin he pin
  refine .ok_bind hr ?_
  cases r with
  | some var => exact .pure hs ⟨rfl, hchild var rfl, hr⟩
  | none =>
    obtain ⟨x, hx⟩ := Tree.exists_expr he
    exact .ok_bind (Tree.expr_eq_ok.2 hx) (.throw hs (by simp))

theorem resolves_pinOperand (h : cx.Ready F) (hs : s.Sound cx.tree cx.env)
    (he : e < cx.tree.exprs.length) (pin : String) :
    Resolves cx.tree cx.env F s (cx.pinOperand e pin) fun o s' =>
      s'.Holds cx.env o ∧ cx.tree.PinOperand s' e pin o := by
  refine (h.resolves_requiredVar hs he pin).bind fun var _ h1 _ ⟨_, hchild, hvar⟩ => ?_
  refine (h.resolves_operandOf h1 (h.tree.children hchild)).mono fun o s' h => ⟨h.1, var, hvar, h.2⟩

/-- A call names a function of the catalog, and has an operand for each of its parameters. -/
theorem resolves_callOperands (h : cx.Ready F) (hs : s.Sound cx.tree cx.env)
    (he : e < cx.tree.exprs.length) (function : String) :
    Resolves cx.tree cx.env F s (cx.callOperands e function) fun r s' =>
      cx.env.catalog.index? function = some r.1 ∧ s'.Accepts cx.env (.execute r.1 r.2) := by
  unfold Context.callOperands
  split
  · exact .throw hs (by simp)
  · next index signature hfind =>
    obtain ⟨hindex, hget⟩ := Catalog.find?_eq_some.1 hfind
    refine (Resolves.mapM (R := fun _ _ _ => True) hs (fun _ _ => trivial) fun _ _ s1 h1 _ =>
      (h.resolves_pinOperand h1 he _).mono fun _ _ ho => ⟨ho.1, trivial⟩).bind
      fun os s1 h1 _ hos => .pure h1 ⟨hindex, ⟨signature, hget, hos.1⟩, hos.2.1⟩

theorem resolves_watch (h : cx.Ready F) (hs : s.Sound cx.tree cx.env) (he : e < cx.tree.exprs.length)
    (hlive : s.Holds cx.env live) : Resolves cx.tree cx.env F s (cx.watch e live) fun _ _ => True := by
  obtain ⟨x, hx⟩ := Tree.exists_expr he
  unfold Context.watch
  refine .ok_bind (Tree.expr_eq_ok.2 hx) ?_
  split
  · exact .pure hs trivial
  · next p hp =>
    obtain ⟨path, hpath⟩ := h.tree.graph.exists_path (h.tree.proxy hx hp)
    refine .ok_bind hpath ?_
    split
    · have hwatch := (h.resolves_watchOperand hs (h.tree.proxy hx hp)).finds finds_watchOperand
      refine hwatch.bind fun mirror s1 h1 q1 ⟨hmirror, ⟨path, hpin, hpath, hkey⟩, _⟩ => ?_
      have hpin := Sharing.isSome_pin?_representative h.sharing hpin
      have hwatch : s1.storage.Mirror cx.tree.graph mirror :=
        ⟨_, path, hpin, hpath, (h1.keyed _ (mem_of_lookup hkey)).2⟩
      exact ⟨sound_addMirror h1 (q1.holds hlive) hmirror hwatch, { Quiet.refl s1 with }, trivial⟩
    · exact .pure hs trivial

end Context.Ready
end NodeGraph.Lowering
