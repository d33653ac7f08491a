import NodeGraph.Proofs.Graph.WellFormed
import NodeGraph.Sharing
import NodeGraph.Tree.Variables

/-!
# Valid trees

What a tree has when validation finds no issue: a well-formed graph, and roots, children, links and
proxies that all exist (`valid_of_issues`). In a valid tree every search for a child comes to a result,
and what it finds is a child. So does every search for a variable, and the proxies that share storage
with one that exists exist too.
-/
namespace NodeGraph.Tree

open Checked

variable {t : Tree} {env : Environment} {e : ExprId} {x : Expression}

/-! ## Expressions -/

theorem expr_eq_ok : t.expr e = .ok x ↔ t.expr? e = some x := get_eq_ok

theorem lt_of_expr? (h : t.expr? e = some x) : e < t.exprs.length := (List.getElem?_eq_some_iff.1 h).1

theorem exists_expr (h : e < t.exprs.length) : ∃ x, t.expr? e = some x := ⟨_, List.getElem?_eq_getElem h⟩

/-- Whether `c` is a child of `e`. -/
def IsChild (t : Tree) (e c : ExprId) : Prop := ∃ x, t.expr? e = some x ∧ c ∈ x.children

theorem children_eq (h : t.expr? e = some x) : t.children e = .ok x.children := by
  rw [children, expr_eq_ok.2 h]; rfl

theorem kind_eq (h : t.expr? e = some x) : t.kind e = .ok x.kind := by
  rw [kind, expr_eq_ok.2 h]; rfl

theorem pinOf_eq (h : t.expr? e = some x) : t.pinOf e = .ok (x.pin?.bind t.graph.pin?) := by
  rw [pinOf, expr_eq_ok.2 h]; rfl

/-! ## Validity -/

/-- All references inside a tree lead to something. -/
structure Valid (t : Tree) : Prop where
  graph : t.graph.WellFormed
  roots : ∀ r ∈ t.roots, r < t.exprs.length
  links : ∀ l ∈ t.links, l.source.existsIn t.graph = true ∧ l.target.existsIn t.graph = true
  children : ∀ {e c}, t.IsChild e c → c < t.exprs.length
  proxy : ∀ {e x p}, t.expr? e = some x → x.proxy = some p → p.existsIn t.graph = true
  source : ∀ {e x p}, t.expr? e = some x → x.source = some p → p.existsIn t.graph = true

/-- Without issues, neither the graph, the roots, the links nor any expression has one. -/
theorem issues_eq_nil (h : t.issues env = .ok []) :
    t.graph.structureIssues = [] ∧ t.rootIssues = [] ∧ t.linkIssues = [] ∧
      ∀ e x, t.expr? e = some x → t.exprIssues env e x = .ok [] := by
  unfold issues at h
  split at h
  · next hfirst =>
    obtain ⟨hgraph, hroots⟩ := List.append_eq_nil_iff.1 hfirst
    obtain ⟨perExpr, hper, h⟩ := bind_eq_ok.1 h
    obtain ⟨hlinks, hflat⟩ := List.append_eq_nil_iff.1 (Except.ok.inj h)
    refine ⟨hgraph, hroots, hlinks, fun e x hx => ?_⟩
    have hmem : (x, e) ∈ t.exprs.zipIdx := List.mem_zipIdx_iff_getElem?.2 hx
    obtain ⟨found, hfound, hok⟩ := mapM_mem hper _ hmem
    obtain ⟨messages, hm, hmap⟩ := bind_eq_ok.1 hok
    rw [hm]
    have hnil : found = [] := List.flatten_eq_nil_iff.1 hflat found hfound
    rw [← Except.ok.inj hmap, List.map_eq_nil_iff] at hnil
    rw [hnil]
  · next hne => exact absurd (Except.ok.inj h) hne

theorem relatives_of_exprIssues (h : t.exprIssues env e x = .ok []) :
    (∀ c ∈ x.children ++ x.parents, c < t.exprs.length) ∧ t.danglingProxy x = none := by
  have hparts : (x.children ++ x.parents).filterMap (fun c =>
      if (t.expr? c).isSome then none else some s!"refers to missing expression #{c}") = [] ∧
      t.danglingProxy x = none := by
    unfold exprIssues at h
    dsimp only at h
    split at h
    · obtain ⟨rest, hrest, h⟩ := bind_eq_ok.1 h
      cases hrest
      exact absurd (List.append_eq_nil_iff.1 (Except.ok.inj h)).2 (by simp)
    · next hnone =>
      refine ⟨?_, hnone⟩
      split at h
      · obtain ⟨_, -, h⟩ := bind_eq_ok.1 h
        exact (List.append_eq_nil_iff.1 (Except.ok.inj h)).1
      · split at h
        · obtain ⟨_, -, h⟩ := bind_eq_ok.1 h
          exact (List.append_eq_nil_iff.1 (Except.ok.inj h)).1
        · obtain ⟨_, -, h⟩ := bind_eq_ok.1 h
          exact (List.append_eq_nil_iff.1 (Except.ok.inj h)).1
  refine ⟨fun c hc => ?_, hparts.2⟩
  have hnone := List.filterMap_eq_nil_iff.1 hparts.1 c hc
  cases hx : t.expr? c with
  | some y => exact lt_of_expr? hx
  | none => simp [hx] at hnone

theorem existsIn_of_danglingProxy (h : t.danglingProxy x = none) :
    ∀ p ∈ x.proxy.toList ++ x.source.toList, p.existsIn t.graph = true := fun p hp => by
  simpa using List.find?_eq_none.1 h p hp

/-- **Validation finds every dangling reference.** -/
theorem valid_of_issues (h : t.issues env = .ok []) : t.Valid := by
  obtain ⟨hgraph, hroots, hlinks, hexprs⟩ := issues_eq_nil h
  have hdangling {e x} (hx : t.expr? e = some x) :=
    existsIn_of_danglingProxy (relatives_of_exprIssues (hexprs e x hx)).2
  refine ⟨Graph.wellFormed_of_structureIssues hgraph, fun r hr => ?_, fun l hl => ?_, ?_, ?_, ?_⟩
  · have hnone := List.filterMap_eq_nil_iff.1 hroots r hr
    cases hx : t.expr? r with
    | some y => exact lt_of_expr? hx
    | none => simp [hx] at hnone
  · have hends := List.filterMap_eq_nil_iff.1 (List.flatMap_eq_nil_iff.1 hlinks l hl)
    refine ⟨?_, ?_⟩
    · simpa using hends l.source (by simp)
    · simpa using hends l.target (by simp)
  · rintro e c ⟨x, hx, hc⟩
    exact (relatives_of_exprIssues (hexprs e x hx)).1 c (by simp [hc])
  · intro e x p hx hp
    exact hdangling hx p (by simp [hp])
  · intro e x p hx hp
    exact hdangling hx p (by simp [hp])

/-! ## Searches -/

/-- The node of an expression is found if its proxy exists. -/
theorem exists_nodeKindOf (hg : t.graph.WellFormed) (hx : t.expr? e = some x)
    (hproxy : ∀ p ∈ x.proxy, p.existsIn t.graph = true) :
    ∃ r, t.nodeKindOf e = .ok r ∧ (r = none ↔ x.proxy = none) := by
  unfold nodeKindOf
  rw [expr_eq_ok.2 hx, ok_bind]
  cases hp : x.proxy with
  | none => exact ⟨none, rfl, by simp⟩
  | some p =>
    obtain ⟨n, node, hn, hnode⟩ := hg.exists_nodeId (hproxy p hp)
    dsimp only
    rw [hn, ok_bind, Graph.node_eq_ok.2 hnode]
    exact ⟨some node.kind, rfl, by simp⟩

section Found

variable {c : ExprId} {name : String} {vs : List ExprId}

theorem isChild_of_mem {children : List ExprId} (h : t.children e = .ok children) (hc : c ∈ children) :
    t.IsChild e c := by
  obtain ⟨x, hx, h⟩ := bind_eq_ok.1 h
  cases h
  exact ⟨x, expr_eq_ok.1 hx, hc⟩

/-- The child that stands for a pin is a value. -/
theorem isChild_of_varForPin (h : t.varForPin e name = .ok (some c)) :
    t.IsChild e c ∧ ∃ x, t.expr? c = some x ∧ x.kind.isValue = true := by
  obtain ⟨children, hchildren, h⟩ := bind_eq_ok.1 h
  obtain ⟨hmem, hvar⟩ := mem_of_findM? h
  obtain ⟨x, hx, hvalue⟩ := bind_eq_ok.1 hvar
  exact ⟨isChild_of_mem hchildren hmem, x, expr_eq_ok.1 hx, (Bool.and_eq_true_iff.1 (Except.ok.inj hvalue)).1⟩

theorem isChild_of_blockForPin (h : t.blockForPin e name = .ok (some c)) :
    ∃ v x, t.IsChild e v ∧ t.expr? v = some x ∧ x.kind.isValue = true ∧ c ∈ x.children := by
  obtain ⟨r, hr, h⟩ := bind_eq_ok.1 h
  cases r with
  | none => cases h
  | some v =>
    obtain ⟨hv, x, hx, hvalue⟩ := isChild_of_varForPin hr
    obtain ⟨children, hchildren, h⟩ := bind_eq_ok.1 h
    obtain ⟨y, hy, hc⟩ := isChild_of_mem hchildren (mem_of_findM? h).1
    cases hx.symm.trans hy
    exact ⟨v, x, hv, hx, hvalue, hc⟩

theorem mem_of_subPinValues (h : t.subPinValues e name = .ok vs) (hc : c ∈ vs) :
    t.IsChild e c ∧ t.isSubPinValue name c = .ok true := by
  obtain ⟨children, hchildren, h⟩ := bind_eq_ok.1 h
  obtain ⟨marked, hmarked, h⟩ := bind_eq_ok.1 h
  cases h
  obtain ⟨m, hm, rfl⟩ := List.mem_map.1 hc
  obtain ⟨hm, htrue⟩ := List.mem_filter.1 hm
  obtain ⟨c', hc', hok⟩ := mem_of_mapM hmarked m hm
  obtain ⟨b, hb, hpair⟩ := bind_eq_ok.1 hok
  cases Except.ok.inj hpair
  cases htrue
  exact ⟨isChild_of_mem hchildren hc', hb⟩

theorem isChild_of_subPinValues (h : t.subPinValues e name = .ok vs) (hc : c ∈ vs) :
    t.IsChild e c := (mem_of_subPinValues h hc).1

theorem isValue_of_subPinValues (h : t.subPinValues e name = .ok vs) (hc : c ∈ vs) :
    ∃ x, t.expr? c = some x ∧ x.kind.isValue = true := by
  obtain ⟨x, hx, hvalue⟩ := bind_eq_ok.1 (mem_of_subPinValues h hc).2
  refine ⟨x, expr_eq_ok.1 hx, ?_⟩
  split at hvalue
  · split at hvalue
    · next h => exact h
    · cases hvalue
  · cases hvalue

end Found

theorem exists_isVarForPin (name : String) (he : e < t.exprs.length) :
    ∃ b, t.isVarForPin name e = .ok b := by
  obtain ⟨x, hx⟩ := exists_expr he
  unfold isVarForPin
  rw [expr_eq_ok.2 hx]
  exact ⟨_, rfl⟩

section Children

variable (hchildren : ∀ {e c}, t.IsChild e c → c < t.exprs.length)

include hchildren

theorem exists_varForPin (he : e < t.exprs.length) (name : String) :
    ∃ r, t.varForPin e name = .ok r ∧ ∀ v ∈ r, t.IsChild e v := by
  obtain ⟨x, hx⟩ := exists_expr he
  obtain ⟨r, hr, -⟩ := exists_findM? (p := t.isVarForPin name) (l := x.children)
    fun c hc => exists_isVarForPin name (hchildren ⟨x, hx, hc⟩)
  have hfound : t.varForPin e name = .ok r := by
    rw [varForPin, children_eq hx]
    exact hr
  exact ⟨r, hfound, fun v hv => (isChild_of_varForPin (hv ▸ hfound)).1⟩

theorem exists_childOfKind (hx : t.expr? e = some x) (test : ExprKind → Bool) :
    ∃ r, x.children.findM? (fun c => return test (← t.kind c)) = .ok r ∧
      ∀ c ∈ r, t.IsChild e c ∧ ∃ y, t.expr? c = some y ∧ test y.kind = true := by
  obtain ⟨r, hr, hmem⟩ := exists_findM? (p := fun c => return test (← t.kind c))
    (l := x.children) fun c hc => by
      obtain ⟨y, hy⟩ := exists_expr (hchildren ⟨x, hx, hc⟩)
      rw [kind_eq hy]
      exact ⟨_, rfl⟩
  refine ⟨r, hr, fun c hc => ⟨⟨x, hx, (hmem c hc).1⟩, ?_⟩⟩
  obtain ⟨y, hy⟩ := exists_expr (hchildren ⟨x, hx, (hmem c hc).1⟩)
  have htest := (hmem c hc).2
  rw [kind_eq hy] at htest
  exact ⟨y, hy, Except.ok.inj htest⟩

theorem exists_blockForPin (he : e < t.exprs.length) (name : String) :
    ∃ r, t.blockForPin e name = .ok r ∧
      ∀ b ∈ r, ∃ v, t.IsChild e v ∧ t.IsChild v b ∧ t.kind b = .ok .block := by
  obtain ⟨r, hr, hvar⟩ := exists_varForPin hchildren he name
  unfold blockForPin
  rw [hr, ok_bind]
  cases r with
  | none => exact ⟨none, rfl, by simp⟩
  | some v =>
    have hv := hvar v rfl
    obtain ⟨y, hy⟩ := exists_expr (hchildren hv)
    obtain ⟨r, hr, hmem⟩ := exists_childOfKind hchildren hy (· = .block)
    dsimp only
    rw [children_eq hy]
    refine ⟨r, hr, fun b hb => ⟨v, hv, (hmem b hb).1, ?_⟩⟩
    obtain ⟨z, hz, hkind⟩ := (hmem b hb).2
    rw [kind_eq hz, of_decide_eq_true hkind]

end Children

namespace Valid

theorem exists_nodeKindOf (h : t.Valid) (hx : t.expr? e = some x) : ∃ r, t.nodeKindOf e = .ok r := by
  obtain ⟨r, hr, -⟩ := Tree.exists_nodeKindOf h.graph hx fun p hp => h.proxy hx hp
  exact ⟨r, hr⟩

theorem exists_varForPin (h : t.Valid) (he : e < t.exprs.length) (name : String) :
    ∃ r, t.varForPin e name = .ok r ∧ ∀ v ∈ r, t.IsChild e v := Tree.exists_varForPin h.children he name

theorem exists_childOfKind (h : t.Valid) (hx : t.expr? e = some x) (test : ExprKind → Bool) :
    ∃ r, x.children.findM? (fun c => return test (← t.kind c)) = .ok r ∧
      ∀ c ∈ r, t.IsChild e c ∧ ∃ y, t.expr? c = some y ∧ test y.kind = true :=
  Tree.exists_childOfKind h.children hx test

theorem exists_blockForPin (h : t.Valid) (he : e < t.exprs.length) (name : String) :
    ∃ r, t.blockForPin e name = .ok r ∧
      ∀ b ∈ r, ∃ v, t.IsChild e v ∧ t.IsChild v b ∧ t.kind b = .ok .block := Tree.exists_blockForPin h.children he name

theorem exists_isSubPinValue (h : t.Valid) (name : String) (he : e < t.exprs.length) :
    ∃ b, t.isSubPinValue name e = .ok b := by
  obtain ⟨x, hx⟩ := exists_expr he
  unfold isSubPinValue
  rw [expr_eq_ok.2 hx, ok_bind]
  cases hpin : x.pin?.bind t.graph.pin? with
  | none => exact ⟨false, rfl⟩
  | some pin =>
    obtain ⟨id, -, hid⟩ := Option.bind_eq_some_iff.1 hpin
    dsimp only
    split
    · cases hpar : pin.parent with
      | none => exact ⟨false, rfl⟩
      | some parent =>
        obtain ⟨upper, hup, -⟩ := h.graph.above hid hpar
        dsimp only
        rw [Graph.pin_eq_ok.2 hup]
        exact ⟨_, rfl⟩
    · exact ⟨false, rfl⟩

theorem exists_subPinValues (h : t.Valid) (he : e < t.exprs.length) (name : String) :
    ∃ vs, t.subPinValues e name = .ok vs ∧ ∀ v ∈ vs, t.IsChild e v := by
  obtain ⟨x, hx⟩ := exists_expr he
  obtain ⟨marked, hmarked⟩ := exists_mapM (l := x.children)
    (f := fun c => return (c, ← t.isSubPinValue name c)) fun c hc => by
      obtain ⟨b, hb⟩ := h.exists_isSubPinValue name (h.children ⟨x, hx, hc⟩)
      rw [hb]
      exact ⟨(c, b), rfl⟩
  have hfound : t.subPinValues e name = .ok ((marked.filter (·.2)).map (·.1)) := by
    rw [subPinValues, children_eq hx, ok_bind, hmarked]
    rfl
  exact ⟨_, hfound, fun v hv => isChild_of_subPinValues hfound hv⟩

end Valid

/-! ## Variables -/

section Variables

variable {s : CallStack}

theorem existsIn_of_mem_sites (h : s.ExistsIn t.graph) {callSite : CallStack}
    (hc : callSite ∈ s.sites) : callSite.ExistsIn t.graph := by
  obtain ⟨depth, -, rfl⟩ := List.mem_map.1 hc
  intro site hsite
  exact h site (List.mem_of_mem_take hsite)

theorem exists_innermostFunction (h : s.ExistsIn t.graph) : ∃ r, t.innermostFunction s = .ok r := by
  unfold innermostFunction
  cases hs : s.innermost with
  | none => exact ⟨none, rfl⟩
  | some site =>
    obtain ⟨node, hnode⟩ := h site (List.mem_of_getLast? hs)
    simp only [functionAt]
    rw [Graph.node_eq_ok.2 hnode, ok_bind]
    split <;> exact ⟨_, rfl⟩

theorem exists_localAt (h : s.ExistsIn t.graph) (name : String) :
    ∃ r, t.localAt name s = .ok r ∧ ∀ access ∈ r, access.callSite = s := by
  obtain ⟨function, hf⟩ := exists_innermostFunction h
  unfold localAt
  rw [hf, ok_bind]
  cases function with
  | none => exact ⟨none, rfl, by simp⟩
  | some function =>
    refine ⟨_, rfl, fun access ha => ?_⟩
    obtain ⟨declaration, -, rfl⟩ := Option.map_eq_some_iff.1 ha
    rfl

theorem exists_findLocal (h : s.ExistsIn t.graph) (name : String) :
    ∃ r, t.findLocal s name = .ok r ∧ ∀ access ∈ r, access.callSite.ExistsIn t.graph := by
  have hsites : ∀ callSite ∈ s.sites.reverse, callSite.ExistsIn t.graph := fun callSite hc =>
    existsIn_of_mem_sites h (List.mem_reverse.1 hc)
  obtain ⟨r, hr, hmem⟩ := exists_findSomeM? (f := t.localAt name) fun callSite hc => by
    obtain ⟨r, hr, -⟩ := exists_localAt (hsites callSite hc) name
    exact ⟨r, hr⟩
  refine ⟨r, hr, fun access ha => ?_⟩
  obtain ⟨callSite, hc, hok⟩ := hmem access ha
  obtain ⟨r', hr', heq⟩ := exists_localAt (hsites callSite hc) name
  rw [hok] at hr'
  cases hr'
  rw [heq access rfl]
  exact hsites callSite hc

end Variables
end NodeGraph.Tree

/-! ## Shared pins -/

namespace NodeGraph.Sharing

open Checked

variable {g : Graph} {s : Sharing} {p : Proxy} {l : ProxyLink}

/-- All proxies in the groups have a property. -/
def Consists (P : Proxy → Prop) (s : Sharing) : Prop := ∀ group ∈ s.groups, ∀ p ∈ group, P p

section Consists

variable {P : Proxy → Prop}

theorem Consists.of_mem_group (h : s.Consists P) (hp : P p) {q : Proxy} (hq : q ∈ s.group p) : P q := by
  unfold group at hq
  split at hq
  · next found hfound => exact h found (List.mem_of_find?_eq_some hfound) q hq
  · rw [List.mem_singleton.1 hq]
    exact hp

theorem Consists.representative (h : s.Consists P) (hp : P p) : P (s.representative p) := by
  unfold Sharing.representative
  cases hg : s.group p with
  | nil => exact hp
  | cons q _ => exact h.of_mem_group hp (by simp [hg])

theorem Consists.join (h : s.Consists P) (hl : P l.source ∧ P l.target) : (s.join l).Consists P := by
  unfold Sharing.join
  split
  · exact h
  · intro group hgroup p hp
    rcases List.mem_cons.1 hgroup with rfl | hgroup
    · rcases List.mem_merge.1 hp with hp | hp
      · exact h.of_mem_group hl.1 hp
      · exact h.of_mem_group hl.2 hp
    · exact h group (List.mem_filter.1 hgroup).1 p hp

theorem consists_ofLinks {links : List ProxyLink} (h : ∀ l ∈ links, P l.source ∧ P l.target) :
    (ofLinks links).Consists P := by
  unfold ofLinks
  suffices hfold : ∀ s : Sharing, s.Consists P → (links.foldl Sharing.join s).Consists P from
    hfold {} fun _ hg => absurd hg (by simp)
  induction links with
  | nil => exact fun s hs => hs
  | cons l links ih =>
    intro s hs
    exact ih (fun l' hl => h l' (by simp [hl])) _ (hs.join (h l (by simp)))

end Consists

/-- All proxies in the groups are of pins and exist. -/
def ExistsIn (g : Graph) : Sharing → Prop := Consists fun p => p.existsIn g = true ∧ p.pin?.isSome = true

theorem existsIn_of_mem_group (h : s.ExistsIn g) (hp : p.existsIn g = true) {q : Proxy}
    (hq : q ∈ s.group p) : q.existsIn g = true :=
  Consists.of_mem_group (fun group hgroup p hp => (h group hgroup p hp).1) hp hq

theorem existsIn_representative (h : s.ExistsIn g) (hp : p.existsIn g = true) :
    (s.representative p).existsIn g = true :=
  Consists.representative (P := fun p => p.existsIn g = true) (fun group hgroup p hp => (h group hgroup p hp).1) hp

theorem isSome_pin?_representative (h : s.ExistsIn g) (hp : p.pin?.isSome = true) :
    (s.representative p).pin?.isSome = true :=
  Consists.representative (P := fun p => p.pin?.isSome = true) (fun group hgroup p hp => (h group hgroup p hp).2) hp

/-- The ends of a shareable link are pins. -/
theorem isSome_pin?_of_isShareable (h : l.isShareable g = .ok true) :
    l.source.pin?.isSome = true ∧ l.target.pin?.isSome = true := by
  unfold ProxyLink.isShareable at h
  split at h
  · next hs ht => simp [hs, ht]
  · cases h

theorem exists_isShareable (hg : g.WellFormed)
    (hl : l.source.existsIn g = true ∧ l.target.existsIn g = true) :
    ∃ b, l.isShareable g = .ok b := by
  unfold ProxyLink.isShareable
  split
  · next hs ht =>
    obtain ⟨source, hsource⟩ := Proxy.exists_pin hl.1 hs
    obtain ⟨target, htarget⟩ := Proxy.exists_pin hl.2 ht
    obtain ⟨owner, howner⟩ := hg.owned htarget
    simp only [Graph.pin_eq_ok.2 hsource, Graph.pin_eq_ok.2 htarget, Graph.node_eq_ok.2 howner,
      ok_bind]
    split <;> exact ⟨_, rfl⟩
  · exact ⟨false, rfl⟩

/-- The groups of a tree consist of the ends of its shareable links. -/
theorem consists_ofTree {t : Tree} {P : Proxy → Prop} (h : ofTree t = .ok s)
    (hl : ∀ l ∈ t.links, l.isShareable t.graph = .ok true → P l.source ∧ P l.target) : s.Consists P := by
  obtain ⟨marked, hmarked, h⟩ := bind_eq_ok.1 h
  cases h
  refine consists_ofLinks fun l hmem => ?_
  obtain ⟨m, hm, rfl⟩ := List.mem_map.1 hmem
  obtain ⟨hm, htrue⟩ := List.mem_filter.1 hm
  obtain ⟨l', hl', hok⟩ := mem_of_mapM hmarked m hm
  obtain ⟨b, hb, hpair⟩ := bind_eq_ok.1 hok
  cases Except.ok.inj hpair
  obtain rfl : b = true := htrue
  exact hl l' hl' hb

/-- The groups of a valid tree are there, and so are the proxies in them. -/
theorem exists_ofTree {t : Tree} (h : t.Valid) : ∃ s, ofTree t = .ok s ∧ s.ExistsIn t.graph := by
  obtain ⟨marked, hmarked⟩ := exists_mapM (l := t.links)
    (f := fun l => return (l, ← l.isShareable t.graph)) fun l hl => by
      obtain ⟨b, hb⟩ := exists_isShareable h.graph (h.links l hl)
      rw [hb]
      exact ⟨(l, b), rfl⟩
  obtain ⟨s, hs⟩ : ∃ s, ofTree t = .ok s := by
    unfold ofTree
    rw [hmarked]
    exact ⟨_, rfl⟩
  refine ⟨s, hs, consists_ofTree hs fun l hl hshareable => ?_⟩
  have hexists := h.links l hl
  have hpins := isSome_pin?_of_isShareable hshareable
  exact ⟨⟨hexists.1, hpins.1⟩, hexists.2, hpins.2⟩

end NodeGraph.Sharing
