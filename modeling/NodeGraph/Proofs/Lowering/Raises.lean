import NodeGraph.Proofs.Lowering.Account
import NodeGraph.Proofs.Tree.Issues

/-!
# The errors of lowering

What the lowering of an expression can fail with when the tree has no issues (`Leftover`). Most errors have
their check in validation. Not all of them: validation does not look at the pins and the function of an
expression that stands for no node, and it asks what a variable is only where an expression stands for it,
while lowering also comes to variables by way of links and transfers.

The errors of an attempt do not depend on how the rest of the tree is lowered, nor on the state it starts in
(`raises_lowerExpr`). They are those of the operands it asks for, and those that it raises itself (`Throws`).
-/
namespace NodeGraph

/-! ## What validation leaves to lowering -/

namespace Tree

/-- A pin is at the end of a link, or at an end of the transfer `e`. -/
def Connects (t : Tree) (e : ExprId) (p : Proxy) : Prop :=
  (∃ l ∈ t.links, p = l.source ∨ p = l.target) ∨
    ∃ x, t.expr? e = some x ∧ x.kind.isTransfer = true ∧ (x.source = some p ∨ x.proxy = some p)

/-- A proxy is of a variable node, and the variable is neither a local nor one of the host. -/
structure Unmapped (t : Tree) (env : Environment) (p : Proxy) (name : String) : Prop where
  node : ∃ n node getter, p.nodeId t.graph = .ok n ∧ t.graph.node? n = some node ∧
    node.kind = .variableAccess name getter
  noLocal : t.findLocal p.callStack name = .ok none
  noExternal : env.isExternal name = false

/-- The errors that the lowering of `e` may end in, in a tree without issues. -/
inductive Leftover (t : Tree) (env : Environment) (e : ExprId) : Lowering.LowerError → Prop
  | type (pin what cause) : Leftover t env e (.type pin what cause)
  | externalSubPin (path) : Leftover t env e (.externalSubPin path)
  | dependencyFailed : Leftover t env e .dependencyFailed
  /-- A cached value has no child with a value. -/
  | notAValue {c y} : c = e ∨ t.IsChild e c → t.expr? c = some y → y.kind = .cachedValue →
      (∀ d ∈ y.children, ∀ z, t.expr? d = some z → z.kind.isValue = false) → Leftover t env e .notAValue
  /-- An expression without a node lacks a pin. -/
  | missingPin {x pin} : t.expr? e = some x → x.proxy = none →
      x.kind = .branch ∨ x.kind = .ifElse ∨ x.kind = .select → t.varForPin e pin = .ok none →
      Leftover t env e (.missingPin x.name pin)
  /-- An expression without a node calls nothing. -/
  | notCallable {x} : t.expr? e = some x → x.proxy = none → x.kind = .call ∨ x.kind = .array →
      Leftover t env e (.notCallable x.name)
  /-- A variable that no expression stands for means nothing. -/
  | unmappedVariable {p name} : t.Connects e p → t.Unmapped env p name →
      Leftover t env e (.unmappedVariable name)

end Tree

namespace Lowering

open Attempt

variable {E : LowerError → Prop} {cx : Context}

/-! ## Registers -/

theorem Storage.isSome_addRegister (storage : Storage) {space : MemorySpace} (h : space ≠ .external)
    (r : Register) : (storage.addRegister space r).isSome = true := by
  cases space with
  | external => exact absurd rfl h
  | _ => rfl

section Registers

variable (htype : ∀ pin what cause, E (.type pin what cause)) {key : String} {space : MemorySpace}

include htype

theorem raises_allocateWith (h : space ≠ .external) {pin : Option PinId} {build : Typed Register} :
    Raises E (allocateWith key space pin build) := by
  unfold allocateWith typed
  refine raises_get_bind fun s => ?_
  split
  · exact raises_pure
  · refine raises_bind (raises_lift_bind fun r _ => ?_) fun register => raises_get_bind fun s => ?_
    · cases r with
      | ok a => exact raises_pure
      | error cause => exact raises_throw (htype _ _ _)
    · split
      · next hnone =>
        have hsome := s.storage.isSome_addRegister h register
        rw [hnone] at hsome
        cases hsome
      · exact raises_step_bind fun _ => raises_pure

namespace Context

theorem raises_allocate (h : space ≠ .external) {spec : RegisterSpec} :
    Raises E (cx.allocate key space spec) := raises_allocateWith htype h

theorem raises_caseLabel (n : Nat) : Raises E (cx.caseLabel n) := raises_allocate htype (by decide)

theorem raises_comparisonScratch : Raises E cx.comparisonScratch := raises_allocate htype (by decide)

theorem raises_localOperand {callSite : CallStack} {function : String} {v : LocalVariable} :
    Raises E (cx.localOperand callSite function v) :=
  raises_bind (raises_allocate htype (by decide)) fun _ =>
    raises_lift_bind fun _ _ => raises_allocate htype (by decide)

theorem raises_allocateFor (h : space ≠ .external) {p : Proxy} : Raises E (cx.allocateFor key space p) :=
  raises_get_bind fun _ => raises_lift_bind fun _ _ => raises_allocate htype h

end Context
end Registers

/-! ## Pins -/

namespace Context

/-- A pass over a tree without issues, in which the pins share storage as they are linked. -/
structure Validated (cx : Context) : Prop where
  issues : cx.tree.issues cx.env = .ok []
  sharing : Sharing.ofTree cx.tree = .ok cx.sharing

variable {e c : ExprId} {x y : Expression} {p : Proxy} {id : PinId}

theorem raises_variableOperand (hvariable : isVariablePin cx.tree.graph p = .ok true)
    (hunmapped : ∀ name, cx.tree.Unmapped cx.env p name → cx.tree.Leftover cx.env e (.unmappedVariable name)) :
    Raises (cx.tree.Leftover cx.env e) (cx.variableOperand p) := by
  obtain ⟨id, pin, node, hid, hpin, hnode, hstorage⟩ := exists_node_of_isVariablePin hvariable
  unfold variableOperand
  simp only [hid]
  refine raises_lift_bind fun pin' hpin' => raises_lift_bind fun node' hnode' => ?_
  cases Graph.pin_eq_ok.1 hpin' ▸ hpin
  cases Graph.node_eq_ok.1 hnode' ▸ hnode
  cases hkind : node.kind with
  | parameter name isInput => exact raises_allocateFor .type (by decide)
  | variableAccess name getter =>
    refine raises_lift_bind fun r hr => ?_
    cases r with
    | some access => exact raises_localOperand .type
    | none =>
      dsimp only
      split
      · exact raises_pure
      · next hindex =>
        have hnodeId := Proxy.nodeId_eq hid hpin
        refine raises_throw (hunmapped name ⟨⟨pin.node, node, getter, hnodeId, hnode, hkind⟩, hr, ?_⟩)
        rw [Environment.isExternal, hindex]
        rfl
  | _ => simp [hkind, NodeKind.isStorage] at hstorage

theorem raises_constantOperand (hid : p.pin? = some id) :
    Raises (cx.tree.Leftover cx.env e) (cx.constantOperand p) := by
  unfold constantOperand
  simp only [hid]
  exact raises_lift_bind fun _ _ => raises_lift_bind fun _ _ => raises_allocateFor .type (by decide)

theorem raises_memoized {find : Attempt Operand} (hfind : Raises (cx.tree.Leftover cx.env e) find) :
    Raises (cx.tree.Leftover cx.env e) (memoized c find) := by
  unfold memoized
  refine raises_get_bind fun s => ?_
  split
  · exact raises_pure
  · split
    · exact raises_throw .dependencyFailed
    · exact raises_bind hfind fun o => raises_step_bind fun _ => raises_pure

theorem raises_watch {o : Operand} (hy : cx.tree.expr? c = some y)
    (hpin : ∀ p ∈ y.proxy, p.pin?.isSome = true) : Raises (cx.tree.Leftover cx.env e) (cx.watch c o) := by
  unfold watch
  refine raises_lift_bind fun y' hy' => ?_
  cases Tree.expr_eq_ok.1 hy' ▸ hy
  split
  · exact raises_pure
  · next p hp =>
    obtain ⟨id, hid⟩ := Option.isSome_iff_exists.1 (hpin p hp)
    refine raises_lift_bind fun path _ => ?_
    split
    · refine raises_bind ?_ fun mirror => raises_step
      unfold watchOperand
      simp only [hid]
      exact raises_lift_bind fun _ _ => raises_lift_bind fun _ _ => raises_allocateWith .type (by decide)
    · exact raises_pure

namespace Validated

variable (h : cx.Validated)

include h

theorem graph : cx.tree.graph.WellFormed := (Tree.valid_of_issues h.issues).graph

/-- A pin shares storage with itself and with ends of links. -/
theorem mem_group {q : Proxy} (hq : q ∈ cx.sharing.group p) :
    q = p ∨ ∃ l ∈ cx.tree.links, q = l.source ∨ q = l.target := by
  have hends : cx.sharing.Consists fun q => q = p ∨ ∃ l ∈ cx.tree.links, q = l.source ∨ q = l.target :=
    Sharing.consists_ofTree h.sharing fun l hl _ => ⟨.inr ⟨l, hl, .inl rfl⟩, .inr ⟨l, hl, .inr rfl⟩⟩
  exact hends.of_mem_group (.inl rfl) hq

theorem raises_rootOperand
    (hunmapped : ∀ name, cx.tree.Unmapped cx.env p name → cx.tree.Leftover cx.env e (.unmappedVariable name)) :
    Raises (cx.tree.Leftover cx.env e) (cx.rootOperand p) := by
  unfold rootOperand
  refine raises_lift_bind fun r hr => ?_
  cases r with
  | none => exact raises_lift_bind fun _ _ => raises_allocateFor .type (by decide)
  | some member =>
    obtain ⟨hmember, hvariable⟩ := Checked.mem_of_findM? hr
    refine raises_variableOperand hvariable fun name hname => ?_
    obtain rfl | hlink := h.mem_group hmember
    · exact hunmapped name hname
    · exact .unmappedVariable (.inl hlink) hname

/-- A sub-pin is of the same variable as its root pin. -/
theorem unmapped_of_root {root : PinId} {pin : Pin} {name : String} (hid : p.pin? = some id)
    (hpin : cx.tree.graph.pin? id = some pin) (hroot : cx.tree.graph.rootPin id = .ok root)
    (hname : cx.tree.Unmapped cx.env (p.withPin root) name) : cx.tree.Unmapped cx.env p name := by
  obtain ⟨⟨n, node, getter, hn, hnode, hkind⟩, hlocal, hexternal⟩ := hname
  obtain ⟨rootPin, hrootPin, hsame⟩ := h.graph.node_of_rootPin hpin hroot
  rw [Proxy.nodeId_eq (p := p.withPin root) rfl hrootPin, hsame] at hn
  exact ⟨⟨n, node, getter, (Proxy.nodeId_eq hid hpin).trans hn, hnode, hkind⟩, hlocal, hexternal⟩

theorem raises_valueOperand (hp : p.pin?.isSome = true)
    (hunmapped : ∀ name, cx.tree.Unmapped cx.env p name → cx.tree.Leftover cx.env e (.unmappedVariable name)) :
    Raises (cx.tree.Leftover cx.env e) (cx.valueOperand p) := by
  obtain ⟨id, hid⟩ := Option.isSome_iff_exists.1 hp
  unfold valueOperand
  simp only [hid]
  refine raises_lift_bind fun pin hpin => ?_
  split
  · exact h.raises_rootOperand hunmapped
  · refine raises_lift_bind fun root hroot => raises_bind ?_ fun base => ?_
    · exact h.raises_rootOperand fun name hname =>
        hunmapped name (h.unmapped_of_root hid (Graph.pin_eq_ok.1 hpin) hroot hname)
    · refine raises_get_bind fun s => raises_lift_bind fun segments _ => ?_
      split
      · exact raises_lift_bind fun path _ => raises_throw (.externalSubPin path)
      · exact raises_step_bind fun _ => raises_pure

/-! ## Expressions -/

theorem complete (hx : cx.tree.expr? c = some x) : cx.tree.Complete cx.env c x := Tree.complete_of_issues h.issues hx

/-- A value stands for a pin. -/
theorem exists_pin (hy : cx.tree.expr? c = some y) (hvalue : y.kind.isValue = true) :
    ∃ p id, y.proxy = some p ∧ p.pin? = some id := by
  have hpin := (h.complete hy).pin (by rw [hvalue]; rfl)
  obtain ⟨id, hid⟩ := Option.isSome_iff_exists.1 hpin
  obtain ⟨p, hp, hid⟩ := Option.bind_eq_some_iff.1 hid
  exact ⟨p, id, hp, hid⟩

/-- A variable that an expression stands for is mapped. -/
theorem not_unmapped (hy : cx.tree.expr? c = some y) (hkind : y.kind = .var) (hp : y.proxy = some p) {name : String} :
    ¬ cx.tree.Unmapped cx.env p name := by
  rintro ⟨⟨n, node, getter, hn, hnode, hname⟩, hlocal, hexternal⟩
  have hnodeKind : cx.tree.nodeKindOf c = .ok (some (.variableAccess name getter)) := by
    unfold Tree.nodeKindOf
    rw [Tree.expr_eq_ok.2 hy, Checked.ok_bind]
    simp only [hp]
    rw [hn, Checked.ok_bind, Graph.node_eq_ok.2 hnode, ← hname]
    rfl
  obtain ⟨access, hfound⟩ | hbound := (h.complete hy).mapped hkind hnodeKind hp
  · cases hlocal.symm.trans hfound
  · rw [hexternal] at hbound
    cases hbound

theorem raises_externalOperand (hy : cx.tree.expr? c = some y) (hkind : y.kind = .externalVar)
    (hp : y.proxy = some p) (hid : p.pin? = some id) :
    Raises (cx.tree.Leftover cx.env e) (cx.externalOperand p) := by
  unfold externalOperand
  simp only [hid]
  refine raises_lift_bind fun pin hpin => ?_
  split
  · refine raises_lift_bind fun name hname => ?_
    split
    · exact raises_pure
    · next hindex =>
      have hpinOf : cx.tree.pinOf c = .ok (some pin) := by
        rw [Tree.pinOf_eq hy, Expression.pin?, hp, Option.bind_some, hid, Option.bind_some, Graph.pin_eq_ok.1 hpin]
      have hbound := (h.complete hy).bound hkind hpinOf hname
      rw [Environment.isExternal, hindex] at hbound
      cases hbound
  · exact raises_lift_bind fun path _ => raises_throw (.externalSubPin path)

theorem raises_pinExprOperand (hy : cx.tree.expr? c = some y) (hvalue : y.kind.isValue = true) :
    Raises (cx.tree.Leftover cx.env e) (cx.pinExprOperand c) := by
  have hpublish {find : Attempt Operand} {p : Proxy} (hfind : Raises (cx.tree.Leftover cx.env e) find) :
      Raises (cx.tree.Leftover cx.env e) (do let o ← find; cx.publish p o; return o) :=
    raises_bind hfind fun o => raises_step_bind fun _ => raises_pure
  obtain ⟨p, id, hp, hid⟩ := h.exists_pin hy hvalue
  unfold pinExprOperand
  refine raises_lift_bind fun y' hy' => raises_memoized ?_
  cases Tree.expr_eq_ok.1 hy' ▸ hy
  rw [hp]
  cases hkind : y.kind with
  | literal => exact raises_constantOperand hid
  | externalVar => exact hpublish (h.raises_externalOperand hy hkind hp hid)
  | var =>
    exact hpublish (h.raises_valueOperand (by rw [hid]; rfl) fun name hname =>
      absurd hname (h.not_unmapped hy hkind hp))
  | _ => simp [hkind, ExprKind.isValue] at hvalue

theorem raises_operandOf (hc : c = e ∨ cx.tree.IsChild e c) (hy : cx.tree.expr? c = some y)
    (hkind : y.kind.isValue = true ∨ y.kind = .cachedValue) :
    Raises (cx.tree.Leftover cx.env e) (cx.operandOf c) := by
  unfold operandOf
  refine raises_lift_bind fun kind hkind' => ?_
  rw [Tree.kind_eq hy] at hkind'
  cases hkind'
  split
  · next hcached =>
    refine raises_memoized (raises_lift_bind fun children hchildren => raises_lift_bind fun r hr => ?_)
    rw [Tree.children_eq hy] at hchildren
    cases hchildren
    cases r with
    | some child =>
      obtain ⟨-, htrue⟩ := Checked.mem_of_findM? hr
      obtain ⟨kind, hchild, hvalue⟩ := Checked.bind_eq_ok.1 htrue
      obtain ⟨z, hz, hkind⟩ := Checked.bind_eq_ok.1 hchild
      cases hkind
      exact h.raises_pinExprOperand (Tree.expr_eq_ok.1 hz) (Except.ok.inj hvalue)
    | none =>
      refine raises_throw (.notAValue hc hy hcached fun d hd z hz => ?_)
      have hfalse := Checked.false_of_findM? hr d hd
      rw [Tree.kind_eq hz] at hfalse
      exact Except.ok.inj hfalse
  · next hcached => exact h.raises_pinExprOperand hy (hkind.resolve_right hcached)

/-- What the lowering of an expression asks for holds a value. -/
theorem raises_asked (hasks : cx.Asks e c) : Raises (cx.tree.Leftover cx.env e) (cx.operandOf c) := by
  have hkind {c : ExprId} {kind : ExprKind} (hkind : cx.tree.kind c = .ok kind) :
      ∃ y, cx.tree.expr? c = some y ∧ y.kind = kind := by
    obtain ⟨y, hy, hk⟩ := Checked.bind_eq_ok.1 hkind
    exact ⟨y, Tree.expr_eq_ok.1 hy, Except.ok.inj hk⟩
  cases hasks with
  | value _ hk hvalue =>
    obtain ⟨y, hy, rfl⟩ := hkind hk
    exact h.raises_operandOf (.inl rfl) hy (.inl hvalue)
  | cached hk =>
    obtain ⟨y, hy, hcached⟩ := hkind hk
    exact h.raises_operandOf (.inl rfl) hy (.inr hcached)
  | pin _ _ hvar =>
    obtain ⟨hchild, y, hy, hvalue⟩ := Tree.isChild_of_varForPin hvar
    exact h.raises_operandOf (.inr hchild) hy (.inl hvalue)
  | case _ hcases hc =>
    obtain ⟨y, hy, hvalue⟩ := Tree.isValue_of_subPinValues hcases hc
    exact h.raises_operandOf (.inr (Tree.isChild_of_subPinValues hcases hc)) hy (.inl hvalue)
  | source hmoves hfind =>
    obtain ⟨hc, htrue⟩ := Checked.mem_of_findM? hfind
    obtain ⟨kind, hk, hholds⟩ := Checked.bind_eq_ok.1 htrue
    obtain ⟨y, hy, rfl⟩ := hkind hk
    exact h.raises_operandOf (.inr ⟨_, hmoves.expr, hc⟩) hy (by simpa using Except.ok.inj hholds)

/-- Both ends of a transfer are pins. -/
theorem raises_askedPin (hasks : cx.AsksPin e p) : Raises (cx.tree.Leftover cx.env e) (cx.valueOperand p) := by
  cases hasks with
  | target hmoves =>
    have hpin := (h.complete hmoves.expr).pin (by rw [hmoves.kind, Bool.or_true])
    rw [Expression.pin?, hmoves.writes] at hpin
    exact h.raises_valueOperand hpin fun name hname =>
      .unmappedVariable (.inr ⟨_, hmoves.expr, hmoves.kind, .inr hmoves.writes⟩) hname
  | source hmoves =>
    have hpin := (h.complete hmoves.expr).source hmoves.kind
    rw [hmoves.reads] at hpin
    exact h.raises_valueOperand hpin fun name hname =>
      .unmappedVariable (.inr ⟨_, hmoves.expr, hmoves.kind, .inl hmoves.reads⟩) hname

/-! ## Errors of an expression itself -/

/-- The node of an expression is found, unless it stands for none. -/
theorem exists_nodeKindOf (hx : cx.tree.expr? e = some x) :
    ∃ r, cx.tree.nodeKindOf e = .ok r ∧ (r = none ↔ x.proxy = none) :=
  Tree.exists_nodeKindOf h.graph hx fun _ hp => (Tree.valid_of_issues h.issues).proxy hx hp

/-- The pins asked for are those that a node needs. Only conditionals and selections ask without one. -/
theorem needs_of_askedPins {pins : List String} {pin : String} (hx : cx.tree.expr? e = some x)
    (hpins : cx.askedPins e = .ok pins) (hpin : pin ∈ pins) :
    (∃ node, cx.tree.nodeKindOf e = .ok (some node) ∧ pin ∈ cx.env.requiredPins x.kind node) ∨
      x.proxy = none ∧ (x.kind = .branch ∨ x.kind = .ifElse ∨ x.kind = .select) := by
  obtain ⟨r, hr, hnone⟩ := h.exists_nodeKindOf hx
  have hfree (hkind : x.kind = .branch ∨ x.kind = .ifElse ∨ x.kind = .select)
      (hrequired : ∀ node, pin ∈ cx.env.requiredPins x.kind node) :
      (∃ node, cx.tree.nodeKindOf e = .ok (some node) ∧ pin ∈ cx.env.requiredPins x.kind node) ∨
        x.proxy = none ∧ (x.kind = .branch ∨ x.kind = .ifElse ∨ x.kind = .select) := by
    cases r with
    | none => exact .inr ⟨hnone.1 rfl, hkind⟩
    | some node => exact .inl ⟨node, hr, hrequired node⟩
  unfold askedPins at hpins
  rw [Tree.kind_eq hx, Checked.ok_bind, hr] at hpins
  cases hkind : x.kind with
  | branch =>
    rw [hkind] at hpins hfree
    cases hpins
    exact hfree (.inl rfl) fun _ => hpin
  | ifElse =>
    rw [hkind] at hpins hfree
    cases hpins
    exact hfree (.inr (.inl rfl)) fun _ => by simpa [Environment.requiredPins, or_left_comm] using hpin
  | select =>
    rw [hkind] at hpins hfree
    obtain ⟨cases, -, hpins⟩ := Checked.bind_eq_ok.1 hpins
    cases cases with
    | nil =>
      cases hpins
      cases hpin
    | cons first others =>
      cases hpins
      exact hfree (.inr (.inr rfl)) fun _ => hpin
  | call =>
    rw [hkind] at hpins
    cases r with
    | none =>
      cases hpins
      cases hpin
    | some node => cases node with
      | unit function =>
        cases hpins
        exact .inl ⟨_, hr, hpin⟩
      | forLoop function =>
        cases hpins
        refine .inl ⟨_, hr, ?_⟩
        rcases List.mem_append.1 hpin with hpin | hpin
        · have hcounter : pin ∈ [PinName.count, PinName.index] := by
            unfold counterPins at hpin
            split at hpin
            · cases hpin
            · exact hpin
          exact List.mem_append_right _ (List.mem_append_left [PinName.proceed] hcounter)
        · rcases List.mem_cons.1 hpin with rfl | hpin
          · simp [Environment.requiredPins]
          · exact List.mem_append_left _ hpin
      | _ =>
        cases hpins
        cases hpin
  | array =>
    rw [hkind] at hpins
    cases r with
    | none =>
      cases hpins
      cases hpin
    | some node => cases node with
      | array op =>
        cases hpins
        exact .inl ⟨_, hr, hpin⟩
      | _ =>
        cases hpins
        cases hpin
  | _ =>
    rw [hkind] at hpins
    cases hpins
    cases hpin

/-- What an expression itself raises is left to lowering. -/
theorem leftover_of_throws {error : LowerError} (hthrows : cx.Throws e error) : cx.tree.Leftover cx.env e error := by
  cases hthrows with
  | missingPin hx hpins hpin hnone =>
    obtain ⟨node, hnode, hrequired⟩ | ⟨hproxy, hkind⟩ := h.needs_of_askedPins hx hpins hpin
    · obtain ⟨c, hc⟩ := (h.complete hx).pins hnode hrequired
      cases hnone.symm.trans hc
    · exact .missingPin hx hproxy hkind hnone
  | unknownFunction hkind hnode hfunction hnone =>
    obtain ⟨x, hx, hk⟩ := Checked.bind_eq_ok.1 hkind
    have hcallable := (h.complete (Tree.expr_eq_ok.1 hx)).callable hnode
    rw [Except.ok.inj hk] at hcallable
    rcases hfunction with rfl | rfl <;>
    · have hfound := Option.isSome_iff_ne_none.1 hcallable
      exact absurd hnone hfound
  | @notCalled _ node hx hkind hnode hother =>
    obtain ⟨r, hr, hnone⟩ := h.exists_nodeKindOf hx
    obtain rfl : node = r := Except.ok.inj (hnode.symm.trans hr)
    cases node with
    | none => exact .notCallable hx (hnone.1 rfl) (.inl hkind)
    | some node =>
      have hcallable := (h.complete hx).callable hnode
      rw [hkind] at hcallable
      cases node with
      | unit function => exact absurd rfl (hother function).1
      | forLoop function => exact absurd rfl (hother function).2
      | _ => exact hcallable.elim
  | @noArray _ node hx hkind hnode hother =>
    obtain ⟨r, hr, hnone⟩ := h.exists_nodeKindOf hx
    obtain rfl : node = r := Except.ok.inj (hnode.symm.trans hr)
    cases node with
    | none => exact .notCallable hx (hnone.1 rfl) (.inr hkind)
    | some node =>
      have hcallable := (h.complete hx).callable hnode
      rw [hkind] at hcallable
      cases node with
      | array op => exact absurd rfl (hother op)
      | _ => exact hcallable.elim
  | missingProxy hx hkind hnone =>
    have hcomplete := h.complete hx
    rcases hnone with hnone | hnone
    · have hsource := hcomplete.source hkind
      rw [hnone] at hsource
      cases hsource
    · have hpin := hcomplete.pin (by rw [hkind, Bool.or_true])
      rw [Expression.pin?, hnone] at hpin
      cases hpin

variable (cx) in
/-- The errors that validation leaves to lowering. -/
def leaving : Account where
  moves _ _ _ _ := True
  lowers _ _ _ := True
  raises := cx.tree.Leftover cx.env

omit h in
theorem tries_of_raises {α : Type} {m : Attempt α} (hm : Raises (cx.tree.Leftover cx.env e) m) :
    (leaving cx).Tries e 0 m := fun s _ =>
  (raises_iff.1 hm s).mono (fun _ _ _ => trivial) fun _ _ h => ⟨trivial, h⟩

theorem leaving_answers : (leaving cx).Answers cx where
  refl _ _ := trivial
  trans _ _ := trivial
  of_lowers _ := trivial
  warning _ _ _ _ := trivial
  push _ _ _ := trivial
  land _ _ := trivial
  entry _ _ _ _ _ := Step.ends_true
  operand _ hasks := tries_of_raises (h.raises_asked hasks)
  value _ hasks := tries_of_raises (h.raises_askedPin hasks)
  label {_ n} _ _ := tries_of_raises (raises_caseLabel .type n)
  scratch _ _ := tries_of_raises (raises_comparisonScratch .type)
  watch {e pin} _ _ hkind _ _ := by
    obtain ⟨x, hx, hk⟩ := Checked.bind_eq_ok.1 hkind
    have hx := Tree.expr_eq_ok.1 hx
    have hvalue : x.kind.isValue = true := by rw [Except.ok.inj hk]; rfl
    obtain ⟨p, id, hp, hid⟩ := h.exists_pin hx hvalue
    refine tries_of_raises (raises_bind (h.raises_operandOf (.inl rfl) hx (.inl hvalue)) fun o => ?_)
    refine raises_watch hx fun p' hp' => ?_
    cases hp.symm.trans hp'
    rw [hid]
    rfl
  throws _ hthrows := h.leftover_of_throws hthrows

/-- The lowering of an expression ends only in errors that validation leaves to it. -/
theorem raises_lowerExpr {lower : ExprId → Step Unit} : Raises (cx.tree.Leftover cx.env e) (cx.lowerExpr lower e) :=
  raises_iff.2 fun s => (h.leaving_answers.tries_lowerExpr trivial (fun _ _ _ _ => Step.ends_true) s trivial).mono
    (fun _ _ h => h) fun _ _ h => h.2

end Validated
end Context
end Lowering
end NodeGraph
