import Mathlib
import NodeGraph.Proofs.Compile.Producers
import NodeGraph.Proofs.Lowering.Growth

/-!
# Reports

The number of errors that a compilation answers with is the number of error messages in its report, also if
the options keep other messages out (`compile_counts_errors`). An expression that fails because of another
one has no message of its own, but the other one has, or has failed itself for a reason that was reported.
So a compilation without errors has lowered every expression it came to.
-/
namespace NodeGraph

open Lowering

/-! ## Counting messages -/

namespace Report

variable {r : Report}

/-- The number of error messages. -/
def errorMessages (r : Report) : Nat := r.diagnostics.countP (·.severity = .error)

/-- The errors that were counted are those with a message. -/
def Counted (r : Report) : Prop := r.errors = r.errorMessages

theorem errorMessages_deliver (severity : Severity) (subject : Subject) (message : String) :
    (r.deliver severity subject message).errorMessages =
      r.errorMessages + if severity = .error then 1 else 0 := by
  simp [deliver, errorMessages, List.countP_append, List.countP_cons]

theorem Counted.error (h : r.Counted) (subject : Subject) (message : String) :
    (r.error subject message).Counted := by
  show r.errors + 1 = (r.deliver .error subject message).errorMessages
  rw [errorMessages_deliver, if_pos rfl, ← h]

theorem Counted.deliver (h : r.Counted) {severity : Severity} (hseverity : severity ≠ .error) (subject : Subject)
    (message : String) : (r.deliver severity subject message).Counted := by
  show r.errors = (r.deliver severity subject message).errorMessages
  rw [errorMessages_deliver, if_neg hseverity, h]
  rfl

theorem Counted.warning (h : r.Counted) (options : CompileOptions) (subject : Subject) (message : String) :
    (r.warning options subject message).Counted := by
  unfold Report.warning
  split
  · exact h
  · exact h.deliver (by decide) subject message

theorem Counted.info (h : r.Counted) (options : CompileOptions) (subject : Subject) (message : String) :
    (r.info options subject message).Counted := by
  unfold Report.info
  split
  · exact h
  · exact h.deliver (by decide) subject message

theorem counted_ofIssues (issues : List Issue) : (Report.ofIssues issues).Counted := by
  suffices h : ∀ r : Report, r.Counted → (issues.foldl (fun r i => r.error i.subject i.message) r).Counted from
    h {} rfl
  induction issues with
  | nil => exact fun _ h => h
  | cons i issues ih => exact fun r h => ih _ (h.error i.subject i.message)

end Report

/-! ## What lowering keeps of a report -/

namespace Lowering

variable {K : Report → Prop} {P : Subject → LowerError → Prop} {cx : Context}

/-- The walk keeps a property of the report, and reports no other errors than `P`. -/
def reporting (K : Report → Prop) (P : Subject → LowerError → Prop) : Account where
  moves _ _ s s' := K s.report → K s'.report
  lowers _ s s' := K s.report → K s'.report
  reports := P

theorem reporting_lawful
    (herror : ∀ r subject error, K r → P subject error → K (r.error subject error.message))
    (hwarning : ∀ r subject message, K r → K (r.warning cx.options subject message))
    (hraised : ∀ e lower, Attempt.Raises (fun error => error.isReported = true → P (error.subject e) error)
      (cx.lowerExpr lower e))
    (hlocal : ∀ callSite function v site, Attempt.Raises (P (.node site)) (cx.localOperand callSite function v)) :
    (reporting K P).Lawful cx := by
  have hruled : (reporting K P).Ruled cx :=
    { refl := fun _ _ h => h
      trans := fun h h' hs => h' (h hs)
      once := fun _ _ _ _ h _ => h
      skip := fun _ _ _ h => h
      of_lowers := fun h => h
      aside := fun hs h => by rw [hs]; exact h
      raised := fun {e lower} _ => hraised e lower
      raisedForLocal := hlocal
      error := fun _ s subject error hP h => herror s.report subject error h hP
      warning := fun _ s subject message h => hwarning s.report subject message h
      failed := fun _ _ h => h
      push := fun _ _ _ h => h
      land := fun _ _ h => h }
  have hstores : (reporting K P).Stores :=
    { storage := fun _ _ h => h
      remember := fun _ h => h
      publish := fun _ _ _ _ h => h
      mirror := fun _ _ _ h => h }
  exact hruled.lawful hstores fun he hkind hlower => hruled.pays_lowerEntry he hlower (fun _ _ h => h) hkind

end Lowering

namespace Tree

variable {t : Tree} {env : Environment} {options : CompileOptions} {sharing : Sharing} {s : State}

/-- What both passes keep of a report holds of the last one. -/
theorem report_of_loweredWith {K : Report → Prop} {P : Subject → LowerError → Prop}
    (h : t.loweredWith env options sharing = .ok s)
    (hlawful : ∀ pass, (reporting K P).Lawful ⟨t, env, options, sharing, pass⟩) (hempty : K {}) : K s.report := by
  obtain ⟨checked, prepared, hpasses⟩ := exists_passes h
  have hpass {pass : Pass} {s s' : State} (hs : K s.report)
      (hrun : Context.lowerRoots ⟨t, env, options, sharing, pass⟩ s = .ok ((), s')) : K s'.report :=
    (hlawful pass).moves_of_lowerRoots (fun _ _ => trivial) trivial hrun 0 hs
  have hchecked : K checked.report :=
    Checked.Ends.of_ok ((hlawful _).pays_checkWatches (e := 0) {} trivial) hpasses.checks hempty
  exact hpass (hpass hchecked hpasses.prepares) hpasses.emits

/-- What was reported on the way was counted. -/
theorem counted_of_loweredWith (h : t.loweredWith env options sharing = .ok s) : s.report.Counted := by
  have htrue {α : Type} {m : Attempt α} {E : LowerError → Prop} : Attempt.Raises (fun error => E error → True) m :=
    fun _ _ _ _ _ => trivial
  exact report_of_loweredWith (P := fun _ _ => True) h
    (fun pass => reporting_lawful (fun _ subject _ h _ => h.error subject _)
      (fun _ subject message h => h.warning options subject message) (fun _ _ => htrue)
      fun _ _ _ _ _ _ _ _ => trivial) rfl

/-- The errors a partial compilation answers with are those with a message. -/
theorem counted_of_compilePartial {c : Compilation (Program × Nat)} (h : t.compilePartial env options = .ok c) :
    (∀ error, c.result = .error error → error.errors = c.report.errorMessages) ∧
      ∀ p errors, c.result = .ok (p, errors) → errors = c.report.errorMessages := by
  obtain ⟨result, report⟩ := c
  cases result with
  | error error =>
    refine ⟨fun error' herror => ?_, fun _ _ hok => nomatch hok⟩
    cases herror
    unfold compilePartial at h
    obtain ⟨issues, -, h⟩ := Checked.bind_eq_ok.1 h
    dsimp only at h
    split at h
    · cases h
      exact Report.counted_ofIssues issues
    · obtain ⟨s, -, h⟩ := Checked.bind_eq_ok.1 h
      cases h
  | ok r =>
    obtain ⟨p, errors⟩ := r
    refine ⟨fun _ herror => (nomatch herror), fun p' errors' hok => ?_⟩
    cases hok
    obtain ⟨-, s, hs, -, rfl, rfl⟩ := compilePartial_eq_ok_iff.1 h
    obtain ⟨sharing, -, hs⟩ := Checked.bind_eq_ok.1 hs
    have hcounted := (counted_of_loweredWith hs).info options .tree s.summary
    have herrors : (s.report.info options .tree s.summary).errors = s.report.errors := by
      unfold Report.info
      split <;> rfl
    exact herrors ▸ hcounted

/-- A compilation gives the answer of a partial one. -/
theorem compile_eq_ok {c : Compilation Program} (h : t.compile env options = .ok c) :
    ∃ c' : Compilation (Program × Nat), t.compilePartial env options = .ok c' ∧ c.report = c'.report ∧
      (∀ error, c.result = .error error → c'.result = .error error ∨ ∃ p, c'.result = .ok (p, error.errors)) ∧
      ∀ p, c.result = .ok p → c'.result = .ok (p, 0) := by
  obtain ⟨c', hc', h⟩ := Checked.bind_eq_ok.1 h
  refine ⟨c', hc', ?_⟩
  cases h
  obtain ⟨result, report⟩ := c'
  refine ⟨rfl, ?_⟩
  cases result with
  | error error => exact ⟨fun _ herror => by cases herror; exact .inl rfl, fun _ hok => nomatch hok⟩
  | ok r =>
    obtain ⟨p, errors⟩ := r
    cases errors with
    | zero => exact ⟨fun _ herror => (nomatch herror), fun _ hok => by cases hok; rfl⟩
    | succ n => exact ⟨fun _ herror => by cases herror; exact .inr ⟨p, rfl⟩, fun _ hok => nomatch hok⟩

/-- Whatever the options are, the number of errors that a compilation or a partial compilation answers with is
the number of error messages in its report. A program without errors has all expressions that either pass came
to: none was marked as failed. -/
theorem compile_counts_errors (t : Tree) (env : Environment) (options : CompileOptions) :
    (∀ c, t.compilePartial env options = .ok c →
      (∀ error, c.result = .error error → error.errors = c.report.errorMessages) ∧
      ∀ p errors, c.result = .ok (p, errors) → errors = c.report.errorMessages) ∧
    ∀ c, t.compile env options = .ok c →
      (∀ error, c.result = .error error → error.errors = c.report.errorMessages) ∧
      ∀ p, c.result = .ok p → c.report.errorMessages = 0 ∧
        ∃ sharing checked prepared s, Sharing.ofTree t = .ok sharing ∧
          t.Passes env options sharing checked prepared s ∧ p = s.program env.externals ∧
          prepared.failed = [] ∧ s.failed = [] := by
  refine ⟨fun c hc => counted_of_compilePartial hc, fun c hc => ?_⟩
  obtain ⟨c', hc', hreport, herror, hok⟩ := compile_eq_ok hc
  obtain ⟨hinvalid, hcounted⟩ := counted_of_compilePartial hc'
  rw [hreport]
  refine ⟨fun error h => ?_, fun p h => ?_⟩
  · rcases herror error h with h | ⟨p, h⟩
    · exact hinvalid error h
    · exact hcounted p _ h
  · have hp := hok p h
    refine ⟨(hcounted p 0 hp).symm, ?_⟩
    obtain ⟨result, report⟩ := c'
    cases hp
    obtain ⟨hissues, s, hs, rfl, herrors, -⟩ := compilePartial_eq_ok_iff.1 hc'
    obtain ⟨sharing, hsharing, -, hwith, hlowered⟩ := lowered_of_issues hissues hs
    obtain ⟨checked, prepared, hpasses⟩ := exists_passes hwith
    -- Something failed only if something was reported.
    have hfailed : s.failed = [] := hlowered.sound.failed_eq_nil herrors.symm
    exact ⟨sharing, checked, prepared, s, hsharing, hpasses, rfl,
      List.subset_nil.1 (hfailed ▸ hpasses.emit.failed), hfailed⟩

end Tree

/-! ## A failure that spreads -/

/-- The pin of the first call has an unknown type. The second call is fed from it by way of a cached value. -/
def spoiltTree : Tree where
  graph := {
    nodes := [⟨"Go", .event "Go", [], none⟩, ⟨"First", .unit "use", [0], none⟩, ⟨"Second", .unit "use", [1], none⟩]
    pins := [
      { node := 1, name := "Value", direction := .input, typeName := "vector" },
      { node := 2, name := "Value", direction := .input, typeName := "int32" }] }
  exprs := [
    { kind := .entry, name := "Go", children := [1, 3], proxy := some ⟨[], .node 0⟩ },
    { kind := .call, name := "First", children := [2], proxy := some ⟨[], .node 1⟩ },
    { kind := .var, name := "Value", proxy := some ⟨[], .pin 0⟩ },
    { kind := .call, name := "Second", children := [4], proxy := some ⟨[], .node 2⟩ },
    { kind := .var, name := "Value", children := [5], proxy := some ⟨[], .pin 1⟩ },
    { kind := .assign, name := "Assign", children := [6], proxy := some ⟨[], .pin 1⟩,
      source := some ⟨[], .pin 0⟩ },
    { kind := .cachedValue, name := "Cache", children := [2] }]
  roots := [0]

/-- Of the messages that are no errors, only information is delivered. -/
def tersely : CompileOptions := { suppressWarnings := true, suppressInfo := false }

theorem lowered_spoiltTree : ∃ s, spoiltTree.lowered forkEnv tersely = .ok s ∧
    s.failed = [5, 6, 1, 2] ∧ s.report.errors = 1 := Checked.exists_ok_of_any (by decide +kernel)

/-- Four expressions of `spoiltTree` fail for one reason, with one message, and nothing of `forkTree` does. -/
theorem Tree.compile_counts_errors_spoiltTree :
    (∃ s p report, spoiltTree.lowered forkEnv tersely = .ok s ∧
      s.failed = [5, 6, 1, 2] ∧
      spoiltTree.compilePartial forkEnv tersely = .ok ⟨.ok (p, 1), report⟩ ∧
      spoiltTree.compile forkEnv tersely = .ok ⟨.error (.failed 1), report⟩ ∧
      1 = report.errorMessages) ∧
    ∃ p report, forkTree.compile forkEnv {} = .ok ⟨.ok p, report⟩ ∧ report.errorMessages = 0 ∧
      ∃ sharing checked prepared s, forkTree.Passes forkEnv {} sharing checked prepared s ∧
        prepared.failed = [] ∧ s.failed = [] := by
  constructor
  · obtain ⟨s, hs, hfailed, herrors⟩ := lowered_spoiltTree
    have hissues : spoiltTree.issues forkEnv = .ok [] := rfl
    have hpartial := Tree.compilePartial_eq_ok_iff.2 ⟨hissues, s, hs, rfl, herrors.symm, rfl⟩
    have hcompile : spoiltTree.compile forkEnv tersely =
        .ok ⟨.error (.failed 1), s.report.info tersely .tree s.summary⟩ := by
      rw [Tree.compile, hpartial]
      rfl
    exact ⟨s, _, _, hs, hfailed, hpartial, hcompile, ((compile_counts_errors _ _ _).1 _ hpartial).2 _ _ rfl⟩
  · obtain ⟨p, report, -, hcompile, -⟩ := compile_forkTree
    obtain ⟨hnone, sharing, checked, prepared, s, -, hpasses, -, hfailed⟩ :=
      ((compile_counts_errors _ _ _).2 _ hcompile).2 p rfl
    exact ⟨p, report, hcompile, hnone, sharing, checked, prepared, s, hpasses, hfailed⟩

end NodeGraph
