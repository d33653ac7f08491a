import NodeGraph.Proofs.Compile.Sound
import NodeGraph.Proofs.Tree.Issues

/-!
# Dangling references

A tree may name elements that do not exist, anywhere (`Tree.Dangles`). Validation finds all of that: it has
at least one issue to report, and a compilation answers that the graph is invalid. There is one way in which
it does not come to its report. It looks for the pins of an expression also among children that do not
exist, and the first of these that it comes to is a fault (`compile_of_dangles`).
-/
namespace NodeGraph

/-! ## References to nothing -/

/-- A proxy names a node, a pin or a call site that does not exist. -/
inductive Proxy.Dangles (g : Graph) : Proxy → Prop
  | node {stack n} : g.node? n = none → Dangles g ⟨stack, .node n⟩
  | pin {stack p} : g.pin? p = none → Dangles g ⟨stack, .pin p⟩
  | site {p site} : site ∈ p.callStack → g.node? site = none → Dangles g p

theorem Proxy.not_dangles {g : Graph} {p : Proxy} (h : p.existsIn g = true) : ¬ p.Dangles g := by
  have htarget := (Bool.and_eq_true_iff.1 h).1
  intro hdangles
  cases hdangles with
  | node hn => simp [hn] at htarget
  | pin hp => simp [hp] at htarget
  | site hsite hn =>
    obtain ⟨node, hnode⟩ := Proxy.callStack_existsIn h _ hsite
    cases hn.symm.trans hnode

namespace Tree

variable {t : Tree} {env : Environment} {options : CompileOptions}

/-- Something in a tree names an element that does not exist. -/
inductive Dangles (t : Tree) : Prop
  | root {r} : r ∈ t.roots → t.expr? r = none → Dangles t
  | child {e x c} : t.expr? e = some x → c ∈ x.children → t.expr? c = none → Dangles t
  | parent {e x c} : t.expr? e = some x → c ∈ x.parents → t.expr? c = none → Dangles t
  | link {l} : l ∈ t.links → l.source.Dangles t.graph ∨ l.target.Dangles t.graph → Dangles t
  | proxy {e x p} : t.expr? e = some x → x.proxy = some p ∨ x.source = some p → p.Dangles t.graph → Dangles t
  | listedPin {n node p} : t.graph.node? n = some node → p ∈ node.pins → t.graph.pin? p = none → Dangles t
  | pinNode {p pin} : t.graph.pin? p = some pin → t.graph.node? pin.node = none → Dangles t
  | pinParent {p pin q} : t.graph.pin? p = some pin → pin.parent = some q → t.graph.pin? q = none → Dangles t
  | subPin {p pin q} : t.graph.pin? p = some pin → q ∈ pin.subPins → t.graph.pin? q = none → Dangles t

/-- Nothing dangles in a tree without issues. -/
theorem not_dangles_of_issues (h : t.issues env = .ok []) : ¬ t.Dangles := by
  have hvalid := valid_of_issues h
  have hrelative {e c : ExprId} {x : Expression} (hx : t.expr? e = some x) (hc : c ∈ x.children ++ x.parents) :
      t.expr? c ≠ none := by
    obtain ⟨y, hy⟩ := exists_expr ((relatives_of_exprIssues ((issues_eq_nil h).2.2.2 e x hx)).1 c hc)
    simp [hy]
  intro hdangles
  cases hdangles with
  | root hr hmissing =>
    obtain ⟨x, hx⟩ := exists_expr (hvalid.roots _ hr)
    cases hmissing.symm.trans hx
  | child hx hc hmissing => exact hrelative hx (List.mem_append_left _ hc) hmissing
  | parent hx hc hmissing => exact hrelative hx (List.mem_append_right _ hc) hmissing
  | link hl hmissing =>
    obtain ⟨hsource, htarget⟩ := hvalid.links _ hl
    exact hmissing.elim (Proxy.not_dangles hsource) (Proxy.not_dangles htarget)
  | proxy hx hp hmissing => exact Proxy.not_dangles (hp.elim (hvalid.proxy hx) (hvalid.source hx)) hmissing
  | listedPin hn hp hmissing =>
    obtain ⟨pin, hpin, -⟩ := hvalid.graph.listed hn hp
    cases hmissing.symm.trans hpin
  | pinNode hp hmissing =>
    obtain ⟨node, hnode⟩ := hvalid.graph.owned hp
    cases hmissing.symm.trans hnode
  | pinParent hp hq hmissing =>
    obtain ⟨upper, hupper, -⟩ := hvalid.graph.above hp hq
    cases hmissing.symm.trans hupper
  | subPin hp hq hmissing =>
    obtain ⟨lower, hlower, -⟩ := hvalid.graph.below hp hq
    cases hmissing.symm.trans hlower

/-! ## Answers -/

/-- Issues are the answer of a compilation. -/
theorem compile_of_issues {issues : List Issue} (h : t.issues env = .ok issues) (hne : issues ≠ []) :
    t.compile env options = .ok ⟨.error (.invalidGraph issues.length), .ofIssues issues⟩ := by
  have hpos : (Report.ofIssues issues).errors > 0 := by
    rw [Report.errors_ofIssues]
    exact List.length_pos_iff.2 hne
  unfold compile compilePartial
  rw [h, Checked.ok_bind]
  dsimp only
  rw [if_pos hpos, Report.errors_ofIssues]
  rfl

theorem compile_of_fault {fault : Fault} (h : t.issues env = .error fault) :
    t.compile env options = .error fault := by
  unfold compile compilePartial
  rw [h]
  rfl

/-- A child that validation stumbles over is missing. -/
theorem Trips.exists_child {c : ExprId} (h : t.Trips env c) : ∃ e, t.IsChild e c ∧ t.expr? c = none := by
  obtain ⟨-, -, e, x, pin, hlooks, hmissing, front, rest, hchildren, -⟩ := h
  exact ⟨e, ⟨x, hlooks.expr, by simp [hchildren]⟩, hmissing⟩

/-- The only fault that validation has is a missing child that it comes to in the search for a pin, and it has
this fault whenever there is such a child. So it ends if all children exist. If it ends and anything in the tree
dangles, then it has issues to report, and a compilation answers that the graph is invalid. -/
theorem compile_of_dangles (t : Tree) (env : Environment) (options : CompileOptions) :
    (∀ fault, t.issues env = .error fault →
      t.compile env options = .error fault ∧ ∃ c, t.Trips env c ∧ fault = .missingExpression c) ∧
    (∀ c, t.Trips env c → ∃ fault, t.issues env = .error fault) ∧
    ((∀ e c, t.IsChild e c → t.expr? c ≠ none) → ∃ issues, t.issues env = .ok issues) ∧
    (t.Dangles → (∀ c, ¬ t.Trips env c) → ∃ issues, t.issues env = .ok issues ∧ issues ≠ [] ∧
      t.compile env options = .ok ⟨.error (.invalidGraph issues.length), .ofIssues issues⟩) := by
  have hends (h : ∀ c, ¬ t.Trips env c) : ∃ issues, t.issues env = .ok issues := by
    cases hissues : t.issues env with
    | ok issues => exact ⟨issues, rfl⟩
    | error fault =>
      obtain ⟨c, htrips, -⟩ := exists_trips_of_issues hissues
      exact absurd htrips (h c)
  refine ⟨fun fault h => ⟨compile_of_fault h, exists_trips_of_issues h⟩, fun c h => exists_fault_of_trips h,
    fun h => hends fun c htrips => ?_, fun hdangles h => ?_⟩
  · obtain ⟨e, hchild, hmissing⟩ := htrips.exists_child
    exact h e c hchild hmissing
  · obtain ⟨issues, hissues⟩ := hends h
    have hne : issues ≠ [] := by
      rintro rfl
      exact not_dangles_of_issues hissues hdangles
    exact ⟨issues, hissues, hne, compile_of_issues hissues hne⟩

/-! ## Two orders of children -/

/-- A branch with the given children. Expression 2 is the value of its condition, and there is none after it. -/
def forkOver (children : List ExprId) : Tree where
  graph := {
    nodes := [⟨"Go", .event "Go", [], none⟩, ⟨"Fork", .branch, [0], none⟩]
    pins := [{ node := 1, name := "Condition", direction := .input, typeName := "bool" }] }
  exprs := [
    { kind := .entry, name := "Go", children := [1], proxy := some ⟨[], .node 0⟩ },
    { kind := .branch, name := "Fork", children, proxy := some ⟨[], .node 1⟩ },
    { kind := .literal, name := "Condition", proxy := some ⟨[], .pin 0⟩ }]
  roots := [0]

theorem dangles_forkOver (children : List ExprId) (h : 9 ∈ children) : (forkOver children).Dangles :=
  .child (e := 1) rfl h rfl

/-- The missing child is an issue if the search for the condition ends before it. -/
theorem compile_of_dangles_forkOver : (forkOver [2, 9]).Dangles ∧ (∀ c, ¬ (forkOver [2, 9]).Trips {} c) ∧
    ∃ issues, (forkOver [2, 9]).issues {} = .ok issues ∧ issues ≠ [] ∧
      (forkOver [2, 9]).compile {} {} = .ok ⟨.error (.invalidGraph issues.length), .ofIssues issues⟩ := by
  have hissues : (forkOver [2, 9]).issues {} = .ok [⟨.expression 1, "refers to missing expression #9"⟩] := by
    decide +kernel
  have hdangles := dangles_forkOver [2, 9] (by simp)
  have htrips (c : ExprId) : ¬ (forkOver [2, 9]).Trips {} c := fun h => by
    obtain ⟨fault, hfault⟩ := exists_fault_of_trips h
    cases hissues.symm.trans hfault
  exact ⟨hdangles, htrips, (compile_of_dangles _ _ _).2.2.2 hdangles htrips⟩

/-- The missing child is a fault if the search for the condition comes to it: validation does not end in a
report, and neither does a compilation. -/
theorem compile_forkOver_fault : (forkOver [9, 2]).Dangles ∧
    (forkOver [9, 2]).issues {} = .error (.missingExpression 9) ∧
    ∀ options, (forkOver [9, 2]).compile {} options = .error (.missingExpression 9) := by
  have hissues : (forkOver [9, 2]).issues {} = .error (.missingExpression 9) := by decide +kernel
  exact ⟨dangles_forkOver [9, 2] (by simp), hissues, fun options => compile_of_fault hissues⟩

end Tree
end NodeGraph
