import NodeGraph.Proofs.Compile.Reports
import NodeGraph.Proofs.Lowering.Raises

/-!
# Errors after validation

The errors that a tree without issues can still be compiled with: the errors of lowering that have no check
in validation (`Tree.Leftover`), and locals whose registers cannot be made. Every error message in the report
of a compilation is of one of these (`errors_after_validation`). None of them is structural if every
expression for a node has its node, and every variable at the end of a link or a transfer is mapped. Without
that, validation misses structural errors (`adriftTree_fails`).
-/
namespace NodeGraph

open Lowering

/-! ## Errors -/

/-- Errors in the structure of a tree, which the checks of validation are for. -/
def Lowering.LowerError.isStructural : LowerError → Bool
  | missingPin .. | unknownFunction _ | notCallable _ | unmappedVariable _ | unknownExternal _ | missingProxy => true
  | _ => false

namespace Tree

variable {t : Tree} {env : Environment} {options : CompileOptions} {e : ExprId}

/-- What validation takes for granted: expressions for nodes stand for one, and variables that are linked or
transferred mean something. -/
structure Anchored (t : Tree) (env : Environment) : Prop where
  placed : ∀ {e x}, t.expr? e = some x → x.kind.isNode = true → x.proxy ≠ none
  mapped : ∀ {e p name}, t.Connects e p → ¬ t.Unmapped env p name

theorem Leftover.not_isStructural {error : LowerError} (h : t.Leftover env e error) (hanchored : t.Anchored env) :
    error.isStructural = false := by
  cases h with
  | type | externalSubPin | dependencyFailed | notAValue => rfl
  | missingPin hx hproxy hkind =>
    refine absurd hproxy (hanchored.placed hx ?_)
    rcases hkind with hkind | hkind | hkind <;> rw [hkind] <;> rfl
  | notCallable hx hproxy hkind =>
    refine absurd hproxy (hanchored.placed hx ?_)
    rcases hkind with hkind | hkind <;> rw [hkind] <;> rfl
  | unmappedVariable hconnects hunmapped => exact absurd hunmapped (hanchored.mapped hconnects)

/-- An error may be reported about something: it was left to the lowering of an expression, or the register
of a local cannot be made. -/
inductive Admits (t : Tree) (env : Environment) : Subject → LowerError → Prop
  | expr {e error} : t.Leftover env e error → error.isReported = true → Admits t env (error.subject e) error
  | local (site pin what cause) : Admits t env (.node site) (.type pin what cause)

end Tree

/-! ## Reports -/

namespace Report

variable {P : Subject → LowerError → Prop} {r : Report}

/-- Every error message is of an error that may be reported. -/
def Explained (P : Subject → LowerError → Prop) (r : Report) : Prop :=
  ∀ d ∈ r.diagnostics, d.severity = .error → ∃ error, P d.subject error ∧ d.message = error.message

theorem Explained.deliver (h : r.Explained P) {severity : Severity} {subject : Subject} {message : String}
    (hnew : severity = .error → ∃ error, P subject error ∧ message = error.message) :
    (r.deliver severity subject message).Explained P := by
  intro d hd
  rcases List.mem_append.1 hd with hd | hd
  · exact h d hd
  · obtain rfl := List.mem_singleton.1 hd
    exact hnew

theorem Explained.error (h : r.Explained P) {subject : Subject} {error : LowerError} (herror : P subject error) :
    (r.error subject error.message).Explained P := h.deliver fun _ => ⟨error, herror, rfl⟩

theorem Explained.warning (h : r.Explained P) (options : CompileOptions) (subject : Subject) (message : String) :
    (r.warning options subject message).Explained P := by
  unfold Report.warning
  split
  · exact h
  · exact h.deliver fun hseverity => by cases hseverity

theorem Explained.info (h : r.Explained P) (options : CompileOptions) (subject : Subject) (message : String) :
    (r.info options subject message).Explained P := by
  unfold Report.info
  split
  · exact h
  · exact h.deliver fun hseverity => by cases hseverity

end Report

/-! ## Compilations -/

namespace Tree

variable {t : Tree} {env : Environment} {options : CompileOptions} {sharing : Sharing} {s : State}

/-- Lowering reports only errors that validation leaves to it. -/
theorem explained_of_loweredWith (hissues : t.issues env = .ok []) (hsharing : Sharing.ofTree t = .ok sharing)
    (h : t.loweredWith env options sharing = .ok s) : s.report.Explained (t.Admits env) := by
  refine report_of_loweredWith (P := t.Admits env) h (fun pass => ?_) fun _ hd => by cases hd
  have hvalidated : Context.Validated ⟨t, env, options, sharing, pass⟩ := ⟨hissues, hsharing⟩
  exact reporting_lawful (fun _ _ _ h herror => h.error herror)
    (fun _ subject message h => h.warning options subject message)
    (fun _ _ => hvalidated.raises_lowerExpr.mono fun _ hleft => .expr hleft)
    fun _ _ _ site => Context.raises_localOperand fun _ _ _ => .local site _ _ _

theorem explained_of_compilePartial (hissues : t.issues env = .ok []) {c : Compilation (Program × Nat)}
    (h : t.compilePartial env options = .ok c) : c.report.Explained (t.Admits env) := by
  unfold compilePartial at h
  rw [hissues, Checked.ok_bind] at h
  dsimp only at h
  rw [if_neg (by rw [Report.errors_ofIssues]; simp)] at h
  obtain ⟨s, hs, h⟩ := Checked.bind_eq_ok.1 h
  cases h
  obtain ⟨sharing, hsharing, hs⟩ := Checked.bind_eq_ok.1 hs
  exact (explained_of_loweredWith hissues hsharing hs).info options .tree s.summary

/-- Of a tree without issues, the lowering of an expression raises only the errors that validation leaves to
it, however the rest of the tree is lowered and from whatever state; the register of a local fails only for its
type. So each error message in the report of a compilation is of such an error. If all expressions for nodes
have their node, and all variables that are linked or transferred are mapped, none of the errors is structural:
they are about types, sub-pins of external variables and cached values without a value, or follow from
others. -/
theorem errors_after_validation (t : Tree) (env : Environment) (options : CompileOptions)
    (h : t.issues env = .ok []) :
    (∀ sharing pass lower e, Sharing.ofTree t = .ok sharing →
      Attempt.Raises (t.Leftover env e) (Context.lowerExpr ⟨t, env, options, sharing, pass⟩ lower e)) ∧
    (∀ sharing pass callSite function v,
      Attempt.Raises (fun error => ∃ pin what cause, error = .type pin what cause)
        (Context.localOperand ⟨t, env, options, sharing, pass⟩ callSite function v)) ∧
    (∀ c, t.compilePartial env options = .ok c → c.report.Explained (t.Admits env)) ∧
    (t.Anchored env → ∀ e error, t.Leftover env e error → error.isStructural = false) := by
  refine ⟨fun sharing pass lower e hsharing => ?_, fun _ _ _ _ _ => ?_, fun c hc => ?_,
    fun hanchored e error hleft => hleft.not_isStructural hanchored⟩
  · have hvalidated : Context.Validated ⟨t, env, options, sharing, pass⟩ := ⟨h, hsharing⟩
    exact hvalidated.raises_lowerExpr
  · exact Context.raises_localOperand fun pin what cause => ⟨pin, what, cause, rfl⟩
  · exact explained_of_compilePartial h hc

end Tree

/-! ## Structural errors that validation misses -/

/-- A branch that stands for no node, and a call that is fed from a variable that is declared nowhere. -/
def adriftTree : Tree where
  graph := {
    nodes := [⟨"Go", .event "Go", [], none⟩, ⟨"Use", .unit "use", [0], none⟩,
      ⟨"Get", .variableAccess "Lost" true, [1], none⟩]
    pins := [
      { node := 1, name := "Value", direction := .input, typeName := "int32" },
      { node := 2, name := "Value", direction := .output, typeName := "int32" }] }
  exprs := [
    { kind := .entry, name := "Go", children := [1, 2], proxy := some ⟨[], .node 0⟩ },
    { kind := .branch, name := "Fork" },
    { kind := .call, name := "Use", children := [3], proxy := some ⟨[], .node 1⟩ },
    { kind := .var, name := "Value", proxy := some ⟨[], .pin 0⟩ }]
  roots := [0]
  links := [⟨⟨[], .pin 1⟩, ⟨[], .pin 0⟩⟩]

def adriftContext : Context := ⟨adriftTree, forkEnv, {}, ⟨[[⟨[], .pin 0⟩, ⟨[], .pin 1⟩]]⟩, .setup⟩

theorem issues_adriftTree : adriftTree.issues forkEnv = .ok [] := by decide +kernel

theorem ofTree_adriftTree : Sharing.ofTree adriftTree = .ok adriftContext.sharing := by cbv

theorem compilePartial_adriftTree :
    ∃ p report, adriftTree.compilePartial forkEnv {} = .ok ⟨.ok (p, 2), report⟩ := by
  have hlowered : ∃ s, adriftTree.lowered forkEnv {} = .ok s ∧ s.report.errors = 2 := by
    rw [Tree.lowered_eq ofTree_adriftTree]
    exact Checked.exists_ok_of_any (by decide +kernel)
  obtain ⟨s, hs, herrors⟩ := hlowered
  exact ⟨_, _, Tree.compilePartial_eq_ok_iff.2 ⟨issues_adriftTree, s, hs, rfl, herrors.symm, rfl⟩⟩

theorem lowerExpr_adriftTree : ∃ s, (adriftContext.lowerExpr adriftContext.lower 1).run {} =
    .ok (.error (.missingPin "Fork" "Condition"), s) := by
  have hrun : ∃ r, (adriftContext.lowerExpr adriftContext.lower 1).run {} = .ok r ∧
      r.1 = .error (.missingPin "Fork" "Condition") := Checked.exists_ok_of_any (by decide +kernel)
  obtain ⟨⟨_, s⟩, hrun, rfl⟩ := hrun
  exact ⟨s, hrun⟩

/-- The error of the branch of `adriftTree` is one of those that validation leaves to lowering, and so are the
errors in the report. -/
theorem Tree.errors_after_validation_adriftTree : adriftTree.issues forkEnv = .ok [] ∧
    (∃ s, (adriftContext.lowerExpr adriftContext.lower 1).run {} =
      .ok (.error (.missingPin "Fork" "Condition"), s) ∧
      adriftTree.Leftover forkEnv 1 (.missingPin "Fork" "Condition")) ∧
    ∃ p report, adriftTree.compilePartial forkEnv {} = .ok ⟨.ok (p, 2), report⟩ ∧
      report.Explained (adriftTree.Admits forkEnv) := by
  obtain ⟨p, report, hcompile⟩ := compilePartial_adriftTree
  have hraises := Tree.errors_after_validation _ _ {} issues_adriftTree
  refine ⟨issues_adriftTree, ?_, p, report, hcompile, hraises.2.2.1 _ hcompile⟩
  obtain ⟨s, hrun⟩ := lowerExpr_adriftTree
  exact ⟨s, hrun, hraises.1 _ .setup _ _ ofTree_adriftTree _ _ _ hrun⟩

/-- Validation finds nothing wrong with `adriftTree`, and lowering raises two structural errors: a missing pin
of the branch, and an unmapped variable that the pin of the call is linked to. -/
theorem adriftTree_fails : adriftTree.issues forkEnv = .ok [] ∧
    Sharing.ofTree adriftTree = .ok adriftContext.sharing ∧
    (∃ s, (adriftContext.lowerExpr adriftContext.lower 1).run {} =
      .ok (.error (.missingPin "Fork" "Condition"), s)) ∧
    (∃ s, (adriftContext.lowerExpr adriftContext.lower 3).run {} =
      .ok (.error (.unmappedVariable "Lost"), s)) ∧
    ∃ report, adriftTree.compile forkEnv {} = .ok ⟨.error (.failed 2), report⟩ := by
  have hvalue : ∃ r, (adriftContext.lowerExpr adriftContext.lower 3).run {} = .ok r ∧
      r.1 = .error (.unmappedVariable "Lost") := Checked.exists_ok_of_any (by decide +kernel)
  obtain ⟨⟨_, s⟩, hvalue, rfl⟩ := hvalue
  obtain ⟨p, report, hcompile⟩ := compilePartial_adriftTree
  refine ⟨issues_adriftTree, ofTree_adriftTree, lowerExpr_adriftTree, ⟨s, hvalue⟩, report, ?_⟩
  rw [Tree.compile, hcompile]
  rfl

end NodeGraph
