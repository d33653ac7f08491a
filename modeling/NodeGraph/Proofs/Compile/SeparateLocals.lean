import Mathlib
import NodeGraph.Proofs.Compile.LocalInitialization
import NodeGraph.Proofs.Compile.Recording

/-!
# The locals of different call sites

Every local has a register for each call site that is entered. The register is found by a key made from the
names of the call sites and of the local, so two locals have one register if and only if they have one key.
Nothing requires nodes to have different names: two call sites of one name share their locals
(`twinTree_shares_local`). Where names are different and contain no separators, no two call sites share a
local, and all locals are in work memory (`locals_have_own_registers`).
-/
namespace NodeGraph

open Lowering

namespace Tree

variable {t : Tree} {env : Environment} {options : CompileOptions} {sharing : Sharing} {s : State}
  {q : Program} {report : Report} {site : CallStack}

/-- An expression that was lowered is inside a call site. -/
def Enters (t : Tree) (s : State) (site : CallStack) : Prop :=
  ∃ e x p, e ∈ s.visited ∧ t.expr? e = some x ∧ x.proxy = some p ∧ site ∈ p.callStack.sites

/-- The locals of the call sites that are entered have registers, if call stacks are recorded. -/
theorem Passes.kept_of_enters {checked prepared : State} (h : t.Passes env options sharing checked prepared s)
    (hsharing : sharing.ExistsIn t.graph) (hrecord : options.recordCallStacks = true) (hfailed : s.failed = [])
    (herrors : s.report.errors = 0) (hsite : t.Enters s site) :
    Context.LocalsKept ⟨t, env, options, sharing, .emit⟩ s.storage site := by
  obtain ⟨e, x, p, he, hx, hp, hsite⟩ := hsite
  have hmet := (h.initialized hsharing hrecord hfailed herrors).known e he
  have hprepared : prepared.failed = [] := List.subset_nil.1 (hfailed ▸ h.emit.failed)
  exact (h.kept herrors ((h.covered hprepared hmet).2 x p hx hp site hsite)).mono h.emit.storage

/-- The locals of the call sites that are entered have registers. -/
theorem kept_of_enters (hs : t.loweredWith env options sharing = .ok s) (hsharing : sharing.ExistsIn t.graph)
    (hfailed : s.failed = []) (herrors : s.report.errors = 0) (hsite : t.Enters s site) :
    Context.LocalsKept ⟨t, env, options, sharing, .emit⟩ s.storage site := by
  by_cases hrecord : options.recordCallStacks = true
  · obtain ⟨checked, prepared, hpasses⟩ := exists_passes hs
    exact hpasses.kept_of_enters hsharing hrecord hfailed herrors hsite
  · -- A record of the call stacks would change nothing but itself.
    have hoptions : options = { options with recordCallStacks := false } := by
      rw [← Bool.eq_false_iff.2 hrecord]
    rw [hoptions, (t.loweredWith_unrecorded env options sharing).1] at hs
    obtain ⟨u, hu, rfl⟩ := Checked.map_eq_ok.1 hs
    obtain ⟨checked, prepared, hpasses⟩ := exists_passes hu
    exact hpasses.kept_of_enters hsharing rfl hfailed herrors hsite

theorem memory_of_localKey (hs : t.loweredWith env options sharing = .ok s) (hsharing : sharing.ExistsIn t.graph)
    (hg : t.graph.PlainNames) {name key : String} {o : Operand} (hkey : localKey t.graph site name = .ok key)
    (ho : s.storage.keyed.lookup key = some o) : o.memory = .work := by
  obtain ⟨table, r, build, -, -, hmakes, -⟩ := makes_of_named hs (named_of_lowered hs ho)
  exact (hmakes.of_localKey hg hsharing hkey).1

/-- The locals of the call sites entered by the code have registers, and two of them have one register if they
have one key. If names contain no separators and nodes have different names, the registers are in work memory,
and those of different call sites are different. -/
theorem locals_have_own_registers (h : t.compile env options = .ok ⟨.ok q, report⟩) :
    ∃ s, t.lowered env options = .ok s ∧ q = s.program env.externals ∧
      ∀ site site' function function' v v', t.Enters s site → t.Enters s site' →
        t.DeclaresAt site function v → t.DeclaresAt site' function' v' →
        ∃ key key' o o', localKey t.graph site v.name = .ok key ∧ localKey t.graph site' v'.name = .ok key' ∧
          s.storage.keyed.lookup key = some o ∧ s.storage.keyed.lookup key' = some o' ∧
          (o.index = o'.index ∧ o.memory = o'.memory ↔ key = key') ∧
          (t.graph.PlainNames → o.memory = .work ∧ o'.memory = .work ∧
            (o.index = o'.index ↔ site = site' ∧ v.name = v'.name)) := by
  obtain ⟨report', hpartial⟩ := compilePartial_of_compile h
  obtain ⟨hissues, s, hs, rfl, herrors, -⟩ := compilePartial_eq_ok_iff.1 hpartial
  obtain ⟨sharing, -, hexists, hwith, hlowered⟩ := lowered_of_issues hissues hs
  have hfailed := hlowered.sound.failed_eq_nil herrors.symm
  refine ⟨s, hs, rfl, fun site site' function function' v v' hsite hsite' hv hv' => ?_⟩
  obtain ⟨key, o, -, hkey, ho, -⟩ := kept_of_enters hwith hexists hfailed herrors.symm hsite function hv.1 v hv.2
  obtain ⟨key', o', -, hkey', ho', -⟩ :=
    kept_of_enters hwith hexists hfailed herrors.symm hsite' function' hv'.1 v' hv'.2
  have hnamed := named_of_lowered hwith ho
  have hnamed' := named_of_lowered hwith ho'
  have hsame : o.index = o'.index ∧ o.memory = o'.memory ↔ key = key' := by
    constructor
    · rintro ⟨hindex, hmemory⟩
      exact hnamed.key_eq hnamed' hmemory hindex
    · rintro rfl
      cases ho.symm.trans ho'
      exact ⟨rfl, rfl⟩
  refine ⟨key, key', o, o', hkey, hkey', ho, ho', hsame, fun hg => ?_⟩
  have hwork := memory_of_localKey hwith hexists hg hkey ho
  have hwork' := memory_of_localKey hwith hexists hg hkey' ho'
  refine ⟨hwork, hwork', fun hindex => ?_, ?_⟩
  · obtain rfl := hsame.1 ⟨hindex, hwork.trans hwork'.symm⟩
    exact localKey_injective hg hkey hkey'
  · rintro ⟨rfl, hname⟩
    rw [← hname] at hkey'
    exact (hsame.2 (Except.ok.inj (hkey.symm.trans hkey'))).1

end Tree

/-! ## Two call sites -/

/-- A function with one local. -/
def totalFunction : FunctionDefinition where
  name := "Count"
  locals := [{ name := "Total", typeName := "int32" }]

/-- Calls inside two call sites of one function, the second of which has a given name. -/
def twinTree (second : String) : Tree where
  graph := {
    nodes := [⟨"Go", .event "Go", [], none⟩, ⟨"Call", .functionReference "Count", [], none⟩,
      ⟨second, .functionReference "Count", [], none⟩, ⟨"Tick", .unit "tick", [], none⟩] }
  functions := [totalFunction]
  exprs := [
    { kind := .entry, name := "Go", children := [1, 2], proxy := some ⟨[], .node 0⟩ },
    { kind := .call, name := "Tick", proxy := some ⟨[1], .node 3⟩ },
    { kind := .call, name := "Tick", proxy := some ⟨[2], .node 3⟩ }]
  roots := [0]

theorem issues_twinTree (second : String) : (twinTree second).issues tickEnv = .ok [] := rfl

theorem declaresAt_twinTree (second : String) {site : CallStack} (hsite : site ∈ [[1], [2]]) :
    (twinTree second).DeclaresAt site totalFunction { name := "Total", typeName := "int32" } := by
  simp only [List.mem_cons, List.not_mem_nil, or_false] at hsite
  rcases hsite with rfl | rfl
  · exact ⟨rfl, List.mem_cons_self⟩
  · exact ⟨rfl, List.mem_cons_self⟩

theorem enters_twinTree (second : String) {s : State} (hvisited : s.visited = [2, 1, 0]) {site : CallStack}
    (hsite : site ∈ [[1], [2]]) : (twinTree second).Enters s site := by
  simp only [List.mem_cons, List.not_mem_nil, or_false] at hsite
  rcases hsite with rfl | rfl
  · exact ⟨1, _, _, by simp [hvisited], rfl, rfl, by decide⟩
  · exact ⟨2, _, _, by simp [hvisited], rfl, rfl, by decide⟩

theorem lowered_twinTree : ∃ s : State, (twinTree "Other").lowered tickEnv {} = .ok s ∧
    s.visited = [2, 1, 0] ∧ s.report.errors = 0 := by
  exact Checked.exists_ok_of_any (by decide +kernel)

/-- With different names, each call site has a register of its own for the local. -/
theorem Tree.locals_have_own_registers_twinTree : ∃ (s : State) (report : Report) (o o' : Operand),
    (twinTree "Other").compile tickEnv {} = .ok ⟨.ok (s.program []), report⟩ ∧
      (twinTree "Other").graph.PlainNames ∧ (twinTree "Other").Enters s [1] ∧ (twinTree "Other").Enters s [2] ∧
      s.storage.keyed.lookup "Call|Local::Total" = some o ∧ s.storage.keyed.lookup "Other|Local::Total" = some o' ∧
      o.memory = .work ∧ o'.memory = .work ∧ o.index ≠ o'.index := by
  obtain ⟨s, hs, hvisited, herrors⟩ := lowered_twinTree
  obtain ⟨report, hcompile⟩ := exists_compile_of_lowered (issues_twinTree _) hs herrors
  have hplain : (twinTree "Other").graph.PlainNames :=
    .of_pairwise (by decide) (by decide) (by decide) (by decide)
  have hfirst : (twinTree "Other").Enters s [1] := enters_twinTree _ hvisited (by simp)
  have hsecond : (twinTree "Other").Enters s [2] := enters_twinTree _ hvisited (by simp)
  obtain ⟨s', hs', -, hown⟩ := locals_have_own_registers hcompile
  cases hs.symm.trans hs'
  obtain ⟨key, key', o, o', hkey, hkey', ho, ho', -, hwork⟩ := hown [1] [2] _ _ _ _ hfirst hsecond
    (declaresAt_twinTree _ (by simp)) (declaresAt_twinTree _ (by simp))
  cases hkey
  cases hkey'
  obtain ⟨hmemory, hmemory', hindex⟩ := hwork hplain
  exact ⟨s, report, o, o', hcompile, hplain, hfirst, hsecond, ho, ho', hmemory, hmemory',
    fun heq => absurd (hindex.1 heq).1 (by decide)⟩

theorem lowered_twinTree_same : ∃ s : State, (twinTree "Call").lowered tickEnv {} = .ok s ∧
    s.visited = [2, 1, 0] ∧ s.storage.keyed.lookup "Call|Local::Total" = some ⟨.work, 0, none⟩ ∧
    s.report.errors = 0 := by
  exact Checked.exists_ok_of_any (by decide +kernel)

/-- Two call sites of one name have one register for the local. -/
theorem twinTree_shares_local : ∃ (s : State) (report : Report) (key : String) (o : Operand),
    (twinTree "Call").compile tickEnv {} = .ok ⟨.ok (s.program []), report⟩ ∧
      (twinTree "Call").Enters s [1] ∧ (twinTree "Call").Enters s [2] ∧
      (twinTree "Call").DeclaresAt [1] totalFunction { name := "Total", typeName := "int32" } ∧
      (twinTree "Call").DeclaresAt [2] totalFunction { name := "Total", typeName := "int32" } ∧
      localKey (twinTree "Call").graph [1] "Total" = .ok key ∧
      localKey (twinTree "Call").graph [2] "Total" = .ok key ∧
      s.storage.keyed.lookup key = some o ∧ o.memory = .work := by
  obtain ⟨s, hs, hvisited, hkeyed, herrors⟩ := lowered_twinTree_same
  obtain ⟨report, hcompile⟩ := Tree.exists_compile_of_lowered (issues_twinTree _) hs herrors
  exact ⟨s, report, _, _, hcompile, enters_twinTree _ hvisited (by simp), enters_twinTree _ hvisited (by simp),
    declaresAt_twinTree _ (by simp), declaresAt_twinTree _ (by simp), rfl, rfl, hkeyed, rfl⟩

end NodeGraph
