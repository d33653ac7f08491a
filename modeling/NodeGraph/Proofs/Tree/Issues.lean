import NodeGraph.Proofs.Tree.Valid

/-!
# What validation looks at

Validation searches the children of an expression for the pins that its kind needs, and reports those it
does not find. It also reports children that do not exist, but it searches them all the same: a search that
comes to one of them ends in a fault (`varForPin_eq_error`), and that is the only fault there is
(`exists_trips_of_issues`). An expression without issues has all that its kind needs (`complete_of_issues`).
-/
namespace NodeGraph

open Checked

/-! ## What an expression needs -/

variable {kind : ExprKind}

namespace Environment

/-- The names of the parameters of a function of the catalog. -/
def parameterNames (env : Environment) (function : String) : List String :=
  match env.catalog.find? function with
  | none => []
  | some (_, signature) => signature.parameters.map (·.name)

/-- The pins that an expression needs, by its kind and that of its node. -/
def requiredPins (env : Environment) : ExprKind → NodeKind → List String
  | .call, .unit function => env.parameterNames function
  | .call, .forLoop function =>
    env.parameterNames function ++ [PinName.count, PinName.index, PinName.proceed]
  | .branch, _ => [PinName.condition]
  | .ifElse, _ => [PinName.condition, PinName.whenTrue, PinName.whenFalse, PinName.result]
  | .select, _ => [PinName.index, PinName.result]
  | .array, .array op => op.pinNames
  | _, _ => []

/-- An expression of some kind can stand for a node of some kind. -/
def Callable (env : Environment) : ExprKind → NodeKind → Prop
  | .call, .unit function | .call, .forLoop function => (env.catalog.find? function).isSome = true
  | .call, _ => False
  | .array, .array _ => True
  | .array, _ => False
  | _, _ => True

end Environment

theorem ExprKind.not_isNode (h : (kind.isValue || kind.isTransfer) = true) : kind.isNode = false := by
  revert h
  cases kind <;> decide

namespace Tree

variable {t : Tree} {env : Environment} {e : ExprId} {x : Expression} {fault : Fault} {pin : String}

/-- If an expression stands for a variable, it is a local or one of the host. -/
def Mapped (t : Tree) (env : Environment) (e : ExprId) (x : Expression) : Prop :=
  ∀ {name getter p}, t.nodeKindOf e = .ok (some (.variableAccess name getter)) → x.proxy = some p →
    (∃ access, t.findLocal p.callStack name = .ok (some access)) ∨ env.isExternal name = true

/-- If an expression stands for a pin, it names a variable of the host. -/
def Bound (t : Tree) (env : Environment) (e : ExprId) : Prop :=
  ∀ {pin name}, t.pinOf e = .ok (some pin) → t.externalName pin = .ok name → env.isExternal name = true

/-- An expression that can be understood: variables mean something, nodes can be called, and the pins they
need are there. -/
structure Meaningful (t : Tree) (env : Environment) (e : ExprId) (x : Expression) : Prop where
  mapped : x.kind = .var → t.Mapped env e x
  bound : x.kind = .externalVar → t.Bound env e
  callable : ∀ {kind}, t.nodeKindOf e = .ok (some kind) → env.Callable x.kind kind
  pins : ∀ {kind pin}, t.nodeKindOf e = .ok (some kind) → pin ∈ env.requiredPins x.kind kind →
    ∃ c, t.varForPin e pin = .ok (some c)

/-- A meaningful expression that stands for the pins its kind stands for. -/
structure Complete (t : Tree) (env : Environment) (e : ExprId) (x : Expression) : Prop
    extends t.Meaningful env e x where
  pin : (x.kind.isValue || x.kind.isTransfer) = true → x.pin?.isSome = true
  source : x.kind.isTransfer = true → (x.source.bind Proxy.pin?).isSome = true

/-! ## Searches for pins -/

/-- The search below an expression for a pin comes to a child that does not exist. -/
def Stumbles (t : Tree) (x : Expression) (pin : String) (c : ExprId) : Prop :=
  t.expr? c = none ∧
    ∃ front rest, x.children = front ++ c :: rest ∧ ∀ b ∈ front, t.isVarForPin pin b = .ok false

theorem isVarForPin_eq_error {c : ExprId} :
    t.isVarForPin pin c = .error fault ↔ t.expr? c = none ∧ fault = .missingExpression c := by
  unfold isVarForPin expr Checked.get expr?
  cases t.exprs[c]? with
  | none =>
    refine ⟨fun h => ?_, ?_⟩
    · cases h
      exact ⟨rfl, rfl⟩
    · rintro ⟨-, rfl⟩
      rfl
  | some y =>
    refine ⟨fun h => (by cases h), ?_⟩
    rintro ⟨h, -⟩
    cases h

theorem varForPin_eq_error (hx : t.expr? e = some x) :
    t.varForPin e pin = .error fault ↔ ∃ c, t.Stumbles x pin c ∧ fault = .missingExpression c := by
  rw [varForPin, children_eq hx, ok_bind, findM?_eq_error]
  constructor
  · rintro ⟨front, c, rest, hchildren, hc, hfront⟩
    obtain ⟨hmissing, rfl⟩ := isVarForPin_eq_error.1 hc
    exact ⟨c, ⟨hmissing, front, rest, hchildren, hfront⟩, rfl⟩
  · rintro ⟨c, ⟨hmissing, front, rest, hchildren, hfront⟩, rfl⟩
    exact ⟨front, c, rest, hchildren, isVarForPin_eq_error.2 ⟨hmissing, rfl⟩, hfront⟩

/-- The pins of a list were looked for; without messages, all of them were found. -/
def Searched (t : Tree) (e : ExprId) (pins messages : List String) : Prop :=
  (∀ pin ∈ pins, ∃ r, t.varForPin e pin = .ok r) ∧
    (messages = [] → ∀ pin ∈ pins, ∃ c, t.varForPin e pin = .ok (some c))

/-- One of the pins of a list is looked for in vain, with a fault. -/
def SearchFault (t : Tree) (e : ExprId) (pins : List String) (fault : Fault) : Prop :=
  ∃ pin ∈ pins, t.varForPin e pin = .error fault

theorem SearchFault.mono {pins more : List String} (h : t.SearchFault e pins fault) (hsub : pins ⊆ more) :
    t.SearchFault e more fault := by
  obtain ⟨pin, hpin, hfault⟩ := h
  exact ⟨pin, hsub hpin, hfault⟩

/-- One message for each of the things whose pin is missing. -/
theorem ends_missing {α : Type} (l : List α) (name message : α → String) :
    Checked.Ends (t.SearchFault e (l.map name))
      (do
        let messages ← l.mapM fun a => do
          if (← t.varForPin e (name a)).isSome then return none else return some (message a)
        return messages.filterMap id : Checked (List String))
      (t.Searched e (l.map name)) := by
  cases hmessages : l.mapM (m := Checked) fun a => do
      if (← t.varForPin e (name a)).isSome then return none else return some (message a) with
  | error fault =>
    obtain ⟨a, ha, hfault⟩ := exists_of_mapM_eq_error hmessages
    refine ⟨name a, List.mem_map_of_mem ha, ?_⟩
    cases hsearch : t.varForPin e (name a) with
    | error fault' =>
      rw [hsearch] at hfault
      cases hfault
      rfl
    | ok r =>
      rw [hsearch, ok_bind] at hfault
      split at hfault <;> cases hfault
  | ok messages =>
    have hfound : ∀ a ∈ l, ∃ r, t.varForPin e (name a) = .ok r ∧
        (if r.isSome then none else some (message a)) ∈ messages := by
      intro a ha
      obtain ⟨m, hm, hok⟩ := mapM_mem hmessages a ha
      obtain ⟨r, hr, hok⟩ := bind_eq_ok.1 hok
      refine ⟨r, hr, ?_⟩
      split at hok <;> cases hok <;> simp [*]
    refine ⟨fun pin hpin => ?_, fun hnil pin hpin => ?_⟩
    · obtain ⟨a, ha, rfl⟩ := List.mem_map.1 hpin
      obtain ⟨r, hr, -⟩ := hfound a ha
      exact ⟨r, hr⟩
    · obtain ⟨a, ha, rfl⟩ := List.mem_map.1 hpin
      obtain ⟨r, hr, hm⟩ := hfound a ha
      have hnone := List.filterMap_eq_nil_iff.1 hnil _ hm
      cases r with
      | some c => exact ⟨c, hr⟩
      | none => cases hnone

theorem ends_missingPinIssues (pins : List String) :
    Checked.Ends (t.SearchFault e pins) (t.missingPinIssues e pins) (t.Searched e pins) := by
  have h := ends_missing (t := t) (e := e) pins id fun pin => "required pin '" ++ pin ++ "' is not connected"
  rw [List.map_id] at h
  exact h

theorem ends_functionIssues (function : String) :
    Checked.Ends (t.SearchFault e (env.parameterNames function)) (t.functionIssues env e x function)
      fun messages => t.Searched e (env.parameterNames function) messages ∧
        (messages = [] → (env.catalog.find? function).isSome = true) := by
  unfold functionIssues Environment.parameterNames
  cases env.catalog.find? function with
  | none => exact ⟨⟨by simp, by simp⟩, fun h => by simp at h⟩
  | some found => exact (ends_missing _ _ _).mono fun messages h => ⟨h, fun _ => rfl⟩

theorem Searched.append {pins more messages messages' : List String} (h : t.Searched e pins messages)
    (h' : t.Searched e more messages') : t.Searched e (pins ++ more) (messages ++ messages') := by
  refine ⟨fun pin hpin => ?_, fun hnil pin hpin => ?_⟩
  · exact (List.mem_append.1 hpin).elim (h.1 pin) (h'.1 pin)
  · obtain ⟨hleft, hright⟩ := List.append_eq_nil_iff.1 hnil
    exact (List.mem_append.1 hpin).elim (h.2 hleft pin) (h'.2 hright pin)

/-- A node that is looked at is one that can be called, and all its pins are looked for. -/
theorem ends_nodeExprIssues {kind : NodeKind} (hnode : t.nodeKindOf e = .ok (some kind))
    (hkind : x.kind.isNode = true) :
    Checked.Ends (t.SearchFault e (env.requiredPins x.kind kind)) (t.nodeExprIssues env e x)
      fun messages => t.Searched e (env.requiredPins x.kind kind) messages ∧
        (messages = [] → env.Callable x.kind kind) := by
  have hpins (pins : List String) : Checked.Ends (t.SearchFault e pins) (t.missingPinIssues e pins)
      fun messages => t.Searched e pins messages ∧ (messages = [] → True) :=
    (ends_missingPinIssues pins).mono fun _ h => ⟨h, fun _ => trivial⟩
  have hrefused {message : String} : t.Searched e [] [message] ∧ ([message] = [] → False) :=
    ⟨⟨by simp, by simp⟩, by simp⟩
  unfold nodeExprIssues
  rw [hnode, ok_bind]
  cases hx : x.kind with
  | call => cases kind with
    | unit function => exact ends_functionIssues function
    | forLoop function =>
      have hparameters : Checked.Ends (t.SearchFault e (env.requiredPins .call (.forLoop function)))
          (t.functionIssues env e x function) _ :=
        (ends_functionIssues function).tolerate fun _ h => h.mono (List.subset_append_left _ _)
      have hcounters : Checked.Ends (t.SearchFault e (env.requiredPins .call (.forLoop function)))
          (t.missingPinIssues e [PinName.count, PinName.index, PinName.proceed]) _ :=
        (ends_missingPinIssues _).tolerate fun _ h => h.mono (List.subset_append_right _ _)
      refine ends_bind.2 (hparameters.mono fun messages h => ?_)
      refine ends_bind.2 (hcounters.mono fun messages' h' => ?_)
      exact ⟨h.1.append h', fun hnil => h.2 (List.append_eq_nil_iff.1 hnil).1⟩
    | _ => exact hrefused
  | branch | ifElse | select => exact hpins _
  | array => cases kind with
    | array op => exact hpins _
    | _ => exact hrefused
  | noOp => exact ⟨⟨by simp [Environment.requiredPins], by simp [Environment.requiredPins]⟩, fun _ => trivial⟩
  | _ => simp [hx, ExprKind.isNode] at hkind

/-! ## Faults and issues of an expression -/

/-- Validation looks for a pin that an expression needs. -/
structure LooksFor (t : Tree) (env : Environment) (e : ExprId) (x : Expression) (pin : String) : Prop where
  expr : t.expr? e = some x
  placed : t.danglingProxy x = none
  needed : ∃ kind, t.nodeKindOf e = .ok (some kind) ∧ pin ∈ env.requiredPins x.kind kind

/-- The searches below an expression all end. -/
def SearchesEnd (t : Tree) (env : Environment) (e : ExprId) (x : Expression) : Prop :=
  ∀ pin, t.LooksFor env e x pin → ∃ r, t.varForPin e pin = .ok r

/-- One of the searches below an expression ends in a fault. -/
def PinFault (t : Tree) (env : Environment) (e : ExprId) (x : Expression) (fault : Fault) : Prop :=
  ∃ pin, t.LooksFor env e x pin ∧ t.varForPin e pin = .error fault

theorem existsIn_of_mem_proxy (h : t.danglingProxy x = none) : ∀ p ∈ x.proxy, p.existsIn t.graph = true :=
  fun p hp => existsIn_of_danglingProxy h p (by simp [Option.mem_def.1 hp])

theorem isNode_of_mem_requiredPins {node : NodeKind} (h : pin ∈ env.requiredPins kind node) :
    kind.isNode = true := by
  cases kind with
  | call | noOp | branch | ifElse | select | array => rfl
  | _ => simp [Environment.requiredPins] at h

theorem callable_of_not_isNode (h : kind.isNode = false) (node : NodeKind) : env.Callable kind node := by
  cases kind with
  | call | array => cases h
  | _ => trivial

section Expressions

variable (env) (hg : t.graph.WellFormed) (hx : t.expr? e = some x)

include hg hx

theorem ends_variableIssues (hplaced : t.danglingProxy x = none) :
    Checked.Ends (fun _ => False) (t.variableIssues env e x) fun messages =>
      messages = [] → t.Mapped env e x := by
  have hproxy := existsIn_of_mem_proxy hplaced
  obtain ⟨r, hr, -⟩ := exists_nodeKindOf hg hx hproxy
  unfold variableIssues
  rw [hr, ok_bind]
  split
  · next name getter p hp =>
    obtain ⟨found, hfound, -⟩ := exists_findLocal (Proxy.callStack_existsIn (hproxy p hp)) name
    rw [hfound, ok_bind]
    split
    · next hmapped =>
      rintro - name' getter' p' hnode hp'
      cases hr.symm.trans hnode
      cases hp.symm.trans hp'
      rw [Bool.or_eq_true, Option.isSome_iff_exists] at hmapped
      refine hmapped.imp (fun ⟨access, h⟩ => ⟨access, ?_⟩) id
      rw [hfound, h]
    · exact fun hnil => by cases hnil
  · next hother =>
    rintro - name getter p hnode hp
    exact absurd hp (hother name getter p (Except.ok.inj (hr.symm.trans hnode)))

theorem ends_externalIssues :
    Checked.Ends (fun _ => False) (t.externalIssues env e) fun messages => messages = [] → t.Bound env e := by
  unfold externalIssues
  have hfound := pinOf_eq hx
  cases hpin : x.pin?.bind t.graph.pin? with
  | none =>
    rw [hpin] at hfound
    rw [hfound, ok_bind]
    rintro - pin name hpin'
    cases hfound.symm.trans hpin'
  | some pin =>
    obtain ⟨id, -, hid⟩ := Option.bind_eq_some_iff.1 hpin
    obtain ⟨node, hnode⟩ := hg.owned hid
    obtain ⟨name, hname⟩ : ∃ name, t.externalName pin = .ok name := by
      unfold externalName
      rw [Graph.node_eq_ok.2 hnode, ok_bind]
      split <;> exact ⟨_, rfl⟩
    rw [hpin] at hfound
    rw [hfound, ok_bind]
    dsimp only
    rw [hname, ok_bind]
    split
    · next hexternal =>
      rintro - pin' name' hpin' hname'
      cases hfound.symm.trans hpin'
      cases hname.symm.trans hname'
      exact hexternal
    · exact fun hnil => by cases hnil

theorem ends_meaningIssues_node (hplaced : t.danglingProxy x = none) (hkind : x.kind.isNode = true) :
    Checked.Ends (t.PinFault env e x) (t.nodeExprIssues env e x) fun messages =>
      t.SearchesEnd env e x ∧ (messages = [] → t.Meaningful env e x) := by
  have hproxy := existsIn_of_mem_proxy hplaced
  have hvar : x.kind ≠ .var := fun h => by simp [h, ExprKind.isNode] at hkind
  have hexternal : x.kind ≠ .externalVar := fun h => by simp [h, ExprKind.isNode] at hkind
  obtain ⟨r, hr, -⟩ := exists_nodeKindOf hg hx hproxy
  cases r with
  | none =>
    -- An expression that stands for nothing is not looked at.
    have hnone {kind : NodeKind} : t.nodeKindOf e ≠ .ok (some kind) := by rw [hr]; simp
    unfold nodeExprIssues
    rw [hr, ok_bind]
    refine ⟨fun pin h => ?_, fun _ => ⟨fun h => absurd h hvar, fun h => absurd h hexternal,
      fun h => absurd h hnone, fun h => absurd h hnone⟩⟩
    obtain ⟨kind, hkind, -⟩ := h.needed
    exact absurd hkind hnone
  | some kind =>
    have hsame {kind' : NodeKind} (h : t.nodeKindOf e = .ok (some kind')) : kind' = kind := by
      rw [hr] at h
      cases h
      rfl
    have hends := (ends_nodeExprIssues hr hkind).tolerate (G := t.PinFault env e x)
      fun fault ⟨pin, hpin, hfault⟩ => ⟨pin, ⟨hx, hplaced, kind, hr, hpin⟩, hfault⟩
    refine hends.mono fun messages ⟨hsearched, hcallable⟩ => ⟨fun pin h => ?_, fun hnil => ?_⟩
    · obtain ⟨kind', hkind', hpin⟩ := h.needed
      cases hsame hkind'
      exact hsearched.1 pin hpin
    · refine ⟨fun h => absurd h hvar, fun h => absurd h hexternal, fun h => ?_, fun h hpin => ?_⟩
      · cases hsame h
        exact hcallable hnil
      · cases hsame h
        exact hsearched.2 hnil _ hpin

/-- The meaning of an expression is looked at with a fault only in the search for a pin. -/
theorem ends_meaningIssues (hplaced : t.danglingProxy x = none) :
    Checked.Ends (t.PinFault env e x) (t.meaningIssues env e x) fun messages =>
      t.SearchesEnd env e x ∧ (messages = [] → t.Meaningful env e x) := by
  have hnodes := ends_meaningIssues_node env hg hx hplaced
  -- Of the other kinds, none needs pins.
  have hrest (hkind : x.kind.isNode = false) {messages : List String}
      (hvar : x.kind = .var → messages = [] → t.Mapped env e x)
      (hexternal : x.kind = .externalVar → messages = [] → t.Bound env e) :
      t.SearchesEnd env e x ∧ (messages = [] → t.Meaningful env e x) := by
    have hnone {node : NodeKind} {pin : String} : pin ∉ env.requiredPins x.kind node := fun h => by
      rw [isNode_of_mem_requiredPins h] at hkind
      cases hkind
    refine ⟨fun pin h => ?_, fun hnil => ⟨fun h => hvar h hnil, fun h => hexternal h hnil,
      fun _ => callable_of_not_isNode hkind _, fun _ hpin => absurd hpin hnone⟩⟩
    obtain ⟨node, -, hpin⟩ := h.needed
    exact absurd hpin hnone
  unfold meaningIssues
  cases hkind : x.kind with
  | var =>
    have hends := (ends_variableIssues env hg hx hplaced).tolerate (G := t.PinFault env e x) fun _ h => h.elim
    exact hends.mono fun messages h => hrest (by rw [hkind]; rfl) (fun _ => h) fun h => by simp [hkind] at h
  | externalVar =>
    have hends := (ends_externalIssues env hg hx).tolerate (G := t.PinFault env e x) fun _ h => h.elim
    exact hends.mono fun messages h => hrest (by rw [hkind]; rfl) (fun h => by simp [hkind] at h) fun _ => h
  | call | noOp | branch | ifElse | select | array => exact hnodes (by rw [hkind]; rfl)
  | _ => exact hrest (by rw [hkind]; rfl) (fun h => by simp [hkind] at h) fun h => by simp [hkind] at h

/-- An expression is looked at with a fault only in the search for a pin. Without messages it is complete. -/
theorem ends_exprIssues :
    Checked.Ends (t.PinFault env e x) (t.exprIssues env e x) fun messages =>
      t.SearchesEnd env e x ∧ (messages = [] → t.Complete env e x) := by
  -- Values and transfers need no pins.
  have hnone (hkind : (x.kind.isValue || x.kind.isTransfer) = true) {pin : String} :
      ¬ t.LooksFor env e x pin := fun h => by
    obtain ⟨node, -, hpin⟩ := h.needed
    have hnode := isNode_of_mem_requiredPins hpin
    rw [ExprKind.not_isNode hkind] at hnode
    cases hnode
  unfold exprIssues
  dsimp only
  split
  · next p hdangling =>
    refine ⟨fun pin h => ?_, fun hnil => by simp at hnil⟩
    rw [h.placed] at hdangling
    cases hdangling
  · next hplaced =>
    split
    · next hpin =>
      have hkind := (Bool.and_eq_true_iff.1 hpin).1
      exact ⟨fun pin h => absurd h (hnone hkind), fun hnil => by simp at hnil⟩
    · next hpin =>
      split
      · next hsource =>
        have hkind : (x.kind.isValue || x.kind.isTransfer) = true := by simp [(Bool.and_eq_true_iff.1 hsource).1]
        exact ⟨fun pin h => absurd h (hnone hkind), fun hnil => by simp at hnil⟩
      · next hsource =>
        have hmeaning := ends_meaningIssues env hg hx hplaced
        refine ends_bind.2 (hmeaning.mono fun messages h => ⟨h.1, fun hnil => ?_⟩)
        refine ⟨h.2 (List.append_eq_nil_iff.1 hnil).2, fun hkind => ?_, fun hkind => ?_⟩
        · rw [hkind, Bool.true_and, Bool.not_eq_true] at hpin
          exact Option.isNone_eq_false_iff.1 hpin
        · rw [hkind, Bool.true_and, Bool.not_eq_true] at hsource
          exact Option.isNone_eq_false_iff.1 hsource

end Expressions

/-! ## Faults of validation -/

/-- Validation comes to a child that does not exist. -/
def Trips (t : Tree) (env : Environment) (c : ExprId) : Prop :=
  t.graph.structureIssues = [] ∧ t.rootIssues = [] ∧
    ∃ e x pin, t.LooksFor env e x pin ∧ t.Stumbles x pin c

/-- A missing child that validation comes to is its only fault. -/
theorem exists_trips_of_issues (h : t.issues env = .error fault) :
    ∃ c, t.Trips env c ∧ fault = .missingExpression c := by
  unfold issues at h
  split at h
  · next hfirst =>
    obtain ⟨hgraph, hroots⟩ := List.append_eq_nil_iff.1 hfirst
    obtain hper | ⟨_, -, h⟩ := bind_eq_error.1 h
    · obtain ⟨⟨x, e⟩, hmem, hfault⟩ := exists_of_mapM_eq_error hper
      have hx : t.expr? e = some x := List.mem_zipIdx_iff_getElem?.1 hmem
      have hends := ends_exprIssues env (Graph.wellFormed_of_structureIssues hgraph) hx
      obtain hissues | ⟨_, -, h⟩ := bind_eq_error.1 hfault
      · rw [hissues] at hends
        obtain ⟨pin, hlooks, hpin⟩ := hends
        obtain ⟨c, hstumbles, rfl⟩ := (varForPin_eq_error hx).1 hpin
        exact ⟨c, ⟨hgraph, hroots, e, x, pin, hlooks, hstumbles⟩, rfl⟩
      · cases h
    · cases h
  · cases h

theorem exists_fault_of_trips {c : ExprId} (h : t.Trips env c) : ∃ fault, t.issues env = .error fault := by
  obtain ⟨hgraph, hroots, e, x, pin, hlooks, hstumbles⟩ := h
  have hfault := (varForPin_eq_error hlooks.expr).2 ⟨c, hstumbles, rfl⟩
  cases hissues : t.issues env with
  | error fault => exact ⟨fault, rfl⟩
  | ok issues =>
    exfalso
    unfold Tree.issues at hissues
    rw [hgraph, hroots] at hissues
    obtain ⟨perExpr, hper, -⟩ := bind_eq_ok.1 hissues
    have hmem : (x, e) ∈ t.exprs.zipIdx := List.mem_zipIdx_iff_getElem?.2 hlooks.expr
    obtain ⟨found, -, hok⟩ := mapM_mem hper _ hmem
    obtain ⟨messages, hmessages, -⟩ := bind_eq_ok.1 hok
    have hends := ends_exprIssues env (Graph.wellFormed_of_structureIssues hgraph) hlooks.expr
    obtain ⟨r, hr⟩ := (hends.of_ok hmessages).1 pin hlooks
    cases hfault.symm.trans hr

/-- An expression of a tree without issues is complete. -/
theorem complete_of_issues (h : t.issues env = .ok []) (hx : t.expr? e = some x) : t.Complete env e x := by
  obtain ⟨hgraph, -, -, hexprs⟩ := issues_eq_nil h
  have hends := ends_exprIssues env (Graph.wellFormed_of_structureIssues hgraph) hx
  exact (hends.of_ok (hexprs e x hx)).2 rfl

end Tree
end NodeGraph
