import Mathlib
import NodeGraph.Proofs.Compile.Producers
import NodeGraph.Proofs.Lowering.Initializers

/-!
# The initialization of locals

The locals of a call site are set once, in front of all other code inside the site and in the order of
their declarations (`initializers_come_first`). The registers are found by keys that are made from names:
two functions whose names and locals make one key share the literal of a default, and then a local may be
set to the default of another one (`namesakeTree_wrong_default`). Where names can be told apart, each
local is set from a literal of its own declaration, and by nothing else.

The code that sets locals is emitted where the walk enters the call site first. That need not be on every
path to the site: it may be in one arm of a branch, with the site entered again in the other
(`armsTree_not_initialized`). A path that misses it jumps over it, or begins behind it
(`initialized_on_paths`).
-/
namespace NodeGraph

open Lowering

/-! ## Declarations -/

/-- Names by which the registers of locals and of their defaults can be told apart. -/
structure Tree.PlainLocals (t : Tree) : Prop where
  graph : t.graph.PlainNames
  functions : ∀ f ∈ t.functions, ':' ∉ f.name.toList
  locals : ∀ f ∈ t.functions, (f.locals.map LocalVariable.name).Nodup

/-- The operand is a whole register in a memory space, made under a key from the declaration of a local. -/
def Lowering.Storage.DeclaredAs (s : Storage) (types : TypeRegistry) (space : MemorySpace) (key : String)
    (v : LocalVariable) (o : Operand) : Prop :=
  o.propertyPath = none ∧ o.memory = space ∧ ∃ table r, s.table? space = some table ∧
    table.registers[o.index]? = some r ∧ (types.buildRegister key (localSpec v)).run = .ok (.ok r)

namespace Tree

variable {t : Tree} {site site' : CallStack} {function function' : FunctionDefinition} {v v' : LocalVariable}
  {env : Environment} {options : CompileOptions} {sharing : Sharing} {s : State} {key : String} {o : Operand}

theorem ne_nil_of_innermostFunction (h : t.innermostFunction site = .ok (some function)) : site ≠ [] := by
  rintro rfl
  cases h

/-- A function that is called is the one of its name. -/
theorem function?_of_innermostFunction (h : t.innermostFunction site = .ok (some function)) :
    t.function? function.name = some function := by
  unfold innermostFunction functionAt at h
  cases hsite : site.innermost with
  | none =>
    rw [hsite] at h
    cases h
  | some id =>
    rw [hsite] at h
    obtain ⟨node, -, h⟩ := Checked.bind_eq_ok.1 h
    cases hkind : node.kind with
    | functionReference name =>
      rw [hkind] at h
      have hfound : t.function? name = some function := Except.ok.inj h
      have hname : function.name = name := by simpa using List.find?_some hfound
      rw [hname]
      exact hfound
    | _ =>
      rw [hkind] at h
      cases h

/-- A local is known by its name and that of its function. -/
theorem PlainLocals.eq_of_names (h : t.PlainLocals) (hv : t.DeclaresAt site function v)
    (hv' : t.DeclaresAt site' function' v') (hfunction : function'.name = function.name)
    (hname : v'.name = v.name) : v' = v := by
  have hfound := function?_of_innermostFunction hv.1
  have hfound' := function?_of_innermostFunction hv'.1
  rw [hfunction, hfound] at hfound'
  cases hfound'
  exact List.inj_on_of_nodup_map (h.locals function (List.mem_of_find?_eq_some hfound)) hv'.2 hv.2 hname

section Declared

variable (h : t.PlainLocals) (hs : t.loweredWith env options sharing = .ok s) (hsharing : sharing.ExistsIn t.graph)
  (hv : t.DeclaresAt site function v)

include h hs hsharing hv

theorem PlainLocals.declaredAs_local (hkey : localKey t.graph site v.name = .ok key)
    (ho : s.storage.keyed.lookup key = some o) : s.storage.DeclaredAs env.types .work key v o := by
  have hnamed := named_of_lowered hs ho
  obtain ⟨table, r, build, ht, hr, hmakes, hbuild⟩ := makes_of_named hs hnamed
  obtain ⟨hspace, function', v', hv', hname', rfl⟩ := hmakes.of_localKey h.graph hsharing hkey
  cases hv.1.symm.trans hv'.1
  obtain rfl := h.eq_of_names hv hv' rfl hname'
  rw [hspace] at ht
  exact ⟨hnamed.1, hspace, table, r, ht, hr, hbuild⟩

theorem PlainLocals.declaredAs_default (ho : s.storage.keyed.lookup (localDefaultKey function.name v.name) = some o) :
    s.storage.DeclaredAs env.types .literal (localDefaultKey function.name v.name) v o := by
  have hnamed := named_of_lowered hs ho
  obtain ⟨table, r, build, ht, hr, hmakes, hbuild⟩ := makes_of_named hs hnamed
  obtain ⟨hspace, site', function', v', hv', hkey, rfl⟩ := hmakes.of_localDefaultKey h.graph.bare hsharing
  have hplain {site : CallStack} {f : FunctionDefinition} (hf : t.innermostFunction site = .ok (some f)) :
      ':' ∉ f.name.toList :=
    h.functions f (List.mem_of_find?_eq_some (function?_of_innermostFunction hf))
  obtain ⟨hfunction, hname'⟩ := localDefaultKey_injective (hplain hv'.1) (hplain hv.1) hkey
  obtain rfl := h.eq_of_names hv hv' hfunction hname'
  rw [hspace] at ht
  exact ⟨hnamed.1, hspace, table, r, ht, hr, hbuild⟩

end Declared

end Tree

/-! ## The code of a call site -/

namespace Lowering.Context.Initialized

variable {cx : Context} {w : Outlook} {s : State} {site : CallStack} {r r' : Initialization} {a : Nat}
  {function : FunctionDefinition} {v : LocalVariable} {i : Instruction}

section

variable (h : cx.Initialized w s)

include h

/-- The locals are set of every call site that has code inside it. -/
theorem exists_mem (hsite : site ≠ []) (ha : s.code.IsWithin site a) :
    ∃ r ∈ s.initializers, r.callSite = site := by
  obtain ⟨stack, hstack, hprefix⟩ := ha
  have hmem := h.recorded.sites stack (List.mem_of_getElem? hstack) site (CallStack.mem_sites.2 ⟨hsite, hprefix⟩)
  rw [h.noted] at hmem
  exact List.mem_map.1 hmem

theorem unique (hr : r ∈ s.initializers) (hr' : r' ∈ s.initializers) (heq : r.callSite = r'.callSite) : r = r' :=
  List.inj_on_of_nodup_map (h.noted ▸ h.distinct) hr hr' heq

/-- The locals of a call site are set in one place. -/
theorem mem_at_iff (hr : r ∈ s.initializers) : r' ∈ s.initializers ∧ r'.callSite = r.callSite ↔ r' = r := by
  constructor
  · rintro ⟨hr', heq⟩
    exact h.unique hr' hr heq
  · rintro rfl
    exact ⟨hr, rfl⟩

/-- Where keys can be told apart, a copy of a default into its local stands in the stretch of the call site. -/
theorem mem_of_isInitializer (hfinal : w.final = s.storage) (hg : cx.tree.graph.PlainNames)
    (hnamed : ∀ {key o}, s.storage.keyed.lookup key = some o → s.storage.Named key o)
    (hi : s.code.instructions[a]? = some i)
    (hinit : s.storage.IsInitializer cx.tree.graph site function.name v i) :
    ∃ r ∈ s.initializers, r.callSite = site ∧ ∃ n function' v', a = r.start + n ∧
      cx.tree.innermostFunction site = .ok (some function') ∧ function'.locals[n]? = some v' ∧ v'.name = v.name := by
  obtain ⟨key, source, target, hkey, hsource, htarget, rfl⟩ := hinit
  have hstretch : ∃ r ∈ s.initializers, r.start ≤ a ∧ a < r.stop := by
    refine (h.others hi).resolve_right fun hnone => hnone source (by simp) hg ?_
    rw [hfinal]
    exact ⟨function.name, v.name, hsource⟩
  obtain ⟨r, hr, hstart, hstop⟩ := hstretch
  have hsets := h.sets r hr
  obtain ⟨function', hfunction'⟩ := hsets.called.resolve_left (by omega)
  obtain ⟨hlength, hcopies⟩ := hsets.copies hfunction'
  obtain ⟨n, rfl⟩ := Nat.exists_eq_add_of_le hstart
  have hn : n < function'.locals.length := by omega
  -- What stands there sets a local of that stretch, and its register tells which.
  obtain ⟨i, hi', key', source', target', hkey', -, htarget', rfl⟩ := hcopies (List.getElem?_eq_getElem hn)
  cases hi.symm.trans hi'
  have hkeys := (hnamed htarget).key_eq (hnamed htarget') rfl rfl
  subst hkeys
  obtain ⟨rfl, hname⟩ := localKey_injective hg hkey hkey'
  exact ⟨r, hr, rfl, n, function', _, rfl, hfunction', List.getElem?_eq_getElem hn, hname.symm⟩

/-- A path to code inside the site that sets no locals runs through the code that sets them, begins behind
it or jumps over it. -/
theorem runs_or_jumps_over (hlowered : cx.Lowered s) (hr : r ∈ s.initializers)
    (hfunction : cx.tree.innermostFunction r.callSite = .ok (some function)) {front : List Nat} {x : Nat}
    (hpath : s.code.Path (front ++ [x])) (hother : r.stop ≤ x) :
    (∀ a, r.start ≤ a → a < r.stop → a ∈ front) ∨ (∃ a ∈ (front ++ [x]).head?, r.stop ≤ a) ∨
      ∃ i j, [i, j] <:+: front ++ [x] ∧ i < r.start ∧ r.stop ≤ j ∧ j ≤ x := by
  have hsets := h.sets r hr
  obtain ⟨hlength, hcopies⟩ := hsets.copies hfunction
  by_cases hempty : r.start = r.stop
  · exact .inl fun a hstart hstop => by omega
  have hle := hsets.start_le
  by_cases hbehind : ∃ a ∈ (front ++ [x]).head?, r.stop ≤ a
  · exact .inr (.inl hbehind)
  have hlanding {target : Nat} (htarget : s.code.IsLanding target) : target ≤ r.start ∨ r.stop ≤ target :=
    (h.landings htarget).2 r hr
  have hfirst : ∀ a ∈ (front ++ [x]).head?, a ≤ r.start := by
    intro a ha
    obtain ⟨name, a', hentry, hhead⟩ := hpath.entry
    cases hhead.symm.trans ha
    exact (hlanding (.inl ⟨name, hentry⟩)).resolve_right fun hstop => hbehind ⟨a, ha, hstop⟩
  obtain ⟨ms, hlayout⟩ := hlowered.layout
  have hover := hpath.mem_or_jumps_over hlayout.loops hlayout.lands (q := r.start) (by omega) fun a ha =>
    (Nat.lt_or_eq_of_le (hfirst a ha)).elim (fun hlt => .inr (.inl hlt)) .inl
  rcases hover with hmem | ⟨i, j, hij, hi, hj, hjx⟩
  · -- The copies are straight code, which control leaves at its end.
    have hstraight : ∀ {a j}, r.start ≤ a → a < r.stop → s.code.Flows a j → j = a + 1 := by
      rintro a j hstart hstop ⟨i, hi, hj⟩
      obtain ⟨n, rfl⟩ := Nat.exists_eq_add_of_le hstart
      have hn : n < function.locals.length := by omega
      obtain ⟨i', hi', key, source, target, -, -, -, rfl⟩ := hcopies (List.getElem?_eq_getElem hn)
      cases hi.symm.trans hi'
      simpa [Instruction.successors] using hj
    refine .inl fun a hstart hstop => ?_
    obtain ⟨n, rfl⟩ := Nat.exists_eq_add_of_le hstart
    exact hpath.mem_of_straight hstraight hmem (.inr hother) hstop
  · -- Only a jump forward comes from before the code to behind its start.
    have hflows : s.code.Flows i j := by
      obtain ⟨before, after, heq⟩ := hij
      have hchain := hpath.flows
      rw [← heq, List.append_assoc] at hchain
      exact (List.isChain_cons_cons.1 (List.isChain_append.1 hchain).2.1).1
    refine .inr (.inr ⟨i, j, hij, hi, ?_, hjx⟩)
    rcases hflows.cases with rfl | hforward | ⟨-, -, d, -, hback⟩
    · omega
    · exact (hlanding (.inr ⟨i, hforward⟩)).resolve_left (by omega)
    · omega

end

end Lowering.Context.Initialized

/-! ## Compiled programs -/

namespace Tree

variable {t : Tree} {env : Environment} {options : CompileOptions} {q : Program} {report : Report}
  {site : CallStack} {function : FunctionDefinition}

/-- The state behind a program compiled without errors and with a record of call stacks. -/
theorem exists_initialized_of_compile (h : t.compile env options = .ok ⟨.ok q, report⟩)
    (hrecord : options.recordCallStacks = true) : ∃ s sharing w, t.lowered env options = .ok s ∧
      q = s.program env.externals ∧ sharing.ExistsIn t.graph ∧ t.loweredWith env options sharing = .ok s ∧
      Context.Lowered ⟨t, env, options, sharing, .emit⟩ s ∧ w.final = s.storage ∧
      Context.Initialized ⟨t, env, options, sharing, .emit⟩ w s := by
  obtain ⟨report', hpartial⟩ := compilePartial_of_compile h
  obtain ⟨hissues, s, hs, rfl, herrors, -⟩ := compilePartial_eq_ok_iff.1 hpartial
  obtain ⟨sharing, -, hexists, hwith, hlowered⟩ := lowered_of_issues hissues hs
  obtain ⟨checked, prepared, hpasses⟩ := exists_passes hwith
  have hfailed := hlowered.sound.failed_eq_nil herrors.symm
  exact ⟨s, sharing, _, hs, rfl, hexists, hwith, hlowered, rfl,
    hpasses.initialized hexists hrecord hfailed herrors.symm⟩

/-- The code inside a call site begins with one copy for each local of the function called there, in the order
of the declarations, and the locals are set nowhere else. Each copy is from the register under the key of the
default to that under the key of the local. If names can be told apart, these are a literal and a work register
made from the declaration of the local, and no other copy in the program has these operands. -/
theorem initializers_come_first (h : t.compile env options = .ok ⟨.ok q, report⟩)
    (hrecord : options.recordCallStacks = true) (hfunction : t.innermostFunction site = .ok (some function))
    {a : Nat} (ha : q.bytecode.IsWithin site a) : ∃ s first, t.lowered env options = .ok s ∧
      q = s.program env.externals ∧ (∀ b, q.bytecode.IsWithin site b → first ≤ b) ∧
      (∀ n v, function.locals[n]? = some v → q.bytecode.callStacks[first + n]? = some site ∧
        ∃ i, q.bytecode.instructions[first + n]? = some i ∧
          s.storage.IsInitializer t.graph site function.name v i) ∧
      (∀ r, r ∈ s.initializers ∧ r.callSite = site ↔ r = ⟨site, first, first + function.locals.length⟩) ∧
      (t.PlainLocals → ∀ v ∈ function.locals, ∀ i, s.storage.IsInitializer t.graph site function.name v i →
        (∃ key source target, i = .copy source target ∧ localKey t.graph site v.name = .ok key ∧
          s.storage.DeclaredAs env.types .literal (localDefaultKey function.name v.name) v source ∧
          s.storage.DeclaredAs env.types .work key v target) ∧
        ∀ b, q.bytecode.instructions[b]? = some i → ∃ n, function.locals[n]? = some v ∧ b = first + n) := by
  obtain ⟨s, sharing, w, hs, rfl, hexists, hwith, -, hfinal, hset⟩ := exists_initialized_of_compile h hrecord
  obtain ⟨r, hr, rfl⟩ := hset.exists_mem (ne_nil_of_innermostFunction hfunction) ha
  have hsets := hset.sets r hr
  obtain ⟨hlength, hcopies⟩ := hsets.copies hfunction
  refine ⟨s, r.start, hs, rfl, fun b hb => hsets.first hb, fun n v hv => ⟨?_, hcopies hv⟩, fun r' => ?_, ?_⟩
  · have := (List.getElem?_eq_some_iff.1 hv).1
    exact hsets.recorded (by omega) (by omega)
  · rw [← hlength]
    exact hset.mem_at_iff hr
  · intro hplain v hv i hinit
    have hdeclares : t.DeclaresAt r.callSite function v := ⟨hfunction, hv⟩
    constructor
    · obtain ⟨key, source, target, hkey, hsource, htarget, rfl⟩ := hinit
      exact ⟨key, source, target, rfl, hkey, hplain.declaredAs_default hwith hexists hdeclares hsource,
        hplain.declaredAs_local hwith hexists hdeclares hkey htarget⟩
    · intro b hb
      obtain ⟨r', hr', heq, n, function', v', rfl, hfunction', hv', hname⟩ :=
        hset.mem_of_isInitializer hfinal hplain.graph (named_of_lowered hwith) hb hinit
      cases hfunction.symm.trans hfunction'
      rw [hset.unique hr' hr heq]
      rw [hplain.eq_of_names hdeclares ⟨hfunction, List.mem_of_getElem? hv'⟩ rfl hname] at hv'
      exact ⟨n, hv', rfl⟩

/-- A path from an entry to code inside a call site, other than the code that sets its locals, has run
through all of that code in order, begins behind it, or takes a jump from in front of it to behind it. -/
theorem initialized_on_paths (h : t.compile env options = .ok ⟨.ok q, report⟩)
    (hrecord : options.recordCallStacks = true) (hfunction : t.innermostFunction site = .ok (some function))
    {a : Nat} (ha : q.bytecode.IsWithin site a) : ∃ s first, t.lowered env options = .ok s ∧
      q = s.program env.externals ∧
      (∀ r, r ∈ s.initializers ∧ r.callSite = site ↔ r = ⟨site, first, first + function.locals.length⟩) ∧
      (∀ n v, function.locals[n]? = some v → ∃ i, q.bytecode.instructions[first + n]? = some i ∧
        s.storage.IsInitializer t.graph site function.name v i) ∧
      ∀ front x, q.bytecode.Path (front ++ [x]) → q.bytecode.IsWithin site x →
        ¬ (first ≤ x ∧ x < first + function.locals.length) →
        (∀ n < function.locals.length, first + n ∈ front) ∨
        (∃ start ∈ (front ++ [x]).head?, first + function.locals.length ≤ start) ∨
        ∃ i j, [i, j] <:+: front ++ [x] ∧ i < first ∧ first + function.locals.length ≤ j ∧ j ≤ x := by
  obtain ⟨s, sharing, w, hs, rfl, -, -, hlowered, -, hset⟩ := exists_initialized_of_compile h hrecord
  obtain ⟨r, hr, rfl⟩ := hset.exists_mem (ne_nil_of_innermostFunction hfunction) ha
  have hsets := hset.sets r hr
  obtain ⟨hlength, hcopies⟩ := hsets.copies hfunction
  refine ⟨s, r.start, hs, rfl, fun r' => ?_, fun n v hv => hcopies hv, fun front x hpath hx hother => ?_⟩
  · rw [← hlength]
    exact hset.mem_at_iff hr
  · rw [← hlength] at hother ⊢
    have hfirst := hsets.first hx
    refine (hset.runs_or_jumps_over hlowered hr hfunction hpath (by omega)).imp_left fun hall n hn => ?_
    exact hall _ (by omega) (by omega)

end Tree

/-! ## A call site in both arms of a branch -/

def tickEnv : Environment where
  catalog := ⟨[⟨"tick", []⟩]⟩

/-- A function with two locals. -/
def countFunction : FunctionDefinition where
  name := "Count"
  locals := [{ name := "Total", typeName := "int32" }, { name := "Steps", typeName := "int32", defaultValue := "1" }]

/-- A branch with a call in each arm, both inside one call site. -/
def armsTree : Tree where
  graph := {
    nodes := [⟨"Go", .event "Go", [], none⟩, ⟨"Call", .functionReference "Count", [], none⟩,
      ⟨"Fork", .branch, [0, 1, 2], none⟩, ⟨"Left", .unit "tick", [], none⟩, ⟨"Right", .unit "tick", [], none⟩]
    pins := [
      { node := 2, name := "Condition", direction := .input, typeName := "bool" },
      { node := 2, name := "True", direction := .output, typeName := executeType },
      { node := 2, name := "False", direction := .output, typeName := executeType }] }
  functions := [countFunction]
  exprs := [
    { kind := .entry, name := "Go", children := [1], proxy := some ⟨[], .node 0⟩ },
    { kind := .branch, name := "Fork", children := [2, 3, 4], proxy := some ⟨[], .node 2⟩ },
    { kind := .var, name := "Condition", proxy := some ⟨[], .pin 0⟩ },
    { kind := .var, name := "True", children := [5], proxy := some ⟨[], .pin 1⟩ },
    { kind := .var, name := "False", children := [6], proxy := some ⟨[], .pin 2⟩ },
    { kind := .block, name := "True", children := [7] },
    { kind := .block, name := "False", children := [8] },
    { kind := .call, name := "Left", proxy := some ⟨[1], .node 3⟩ },
    { kind := .call, name := "Right", proxy := some ⟨[1], .node 4⟩ }]
  roots := [0]

def armsCode : List Instruction := [
  .jumpIf ⟨.work, 0, none⟩ 5 false,
  .copy ⟨.literal, 0, none⟩ ⟨.work, 1, none⟩,
  .copy ⟨.literal, 1, none⟩ ⟨.work, 2, none⟩,
  .execute 0 [],
  .jumpForward 2,
  .execute 0 [],
  .exit]

theorem issues_armsTree : armsTree.issues tickEnv = .ok [] := rfl

theorem innermostFunction_armsTree : armsTree.innermostFunction [1] = .ok (some countFunction) := rfl

theorem lowered_armsTree : ∃ s, armsTree.lowered tickEnv {} = .ok s ∧ s.code.instructions = armsCode ∧
    s.code.callStacks = [[], [1], [1], [1], [], [1], []] ∧ s.code.entries.toList = [("Go", 0)] ∧
    s.initializers = [⟨[1], 1, 3⟩] ∧ s.report.errors = 0 := by
  exact Checked.exists_ok_of_any (by decide +kernel)

theorem plainLocals_armsTree : armsTree.PlainLocals where
  graph := .of_pairwise (by decide) (by decide) (by decide) (by decide)
  functions := by decide
  locals := by decide

theorem compile_armsTree : ∃ (s : State) (report : Report),
    armsTree.compile tickEnv {} = .ok ⟨.ok (s.program []), report⟩ ∧
    armsTree.lowered tickEnv {} = .ok s ∧ s.code.instructions = armsCode ∧
    s.code.callStacks = [[], [1], [1], [1], [], [1], []] ∧ s.code.entries.toList = [("Go", 0)] ∧
    s.initializers = [⟨[1], 1, 3⟩] := by
  obtain ⟨s, hs, hcode, hstacks, hentries, hinits, herrors⟩ := lowered_armsTree
  obtain ⟨report, hcompile⟩ := Tree.exists_compile_of_lowered issues_armsTree hs herrors
  exact ⟨s, report, hcompile, hs, hcode, hstacks, hentries, hinits⟩

/-- The two locals are set at the addresses `1` and `2`, from literals of their own. -/
theorem Tree.initializers_come_first_armsTree : ∃ (s : State) (report : Report),
    armsTree.compile tickEnv {} = .ok ⟨.ok (s.program []), report⟩ ∧ s.code.IsWithin [1] 5 ∧
      (∀ b, s.code.IsWithin [1] b → 1 ≤ b) ∧ s.code.callStacks[2]? = some [1] ∧
      ∃ source target, s.code.instructions[2]? = some (.copy source target) ∧
        s.storage.DeclaredAs tickEnv.types .literal "Function::Count::Local::Steps::Const"
          { name := "Steps", typeName := "int32", defaultValue := "1" } source ∧
        s.storage.DeclaredAs tickEnv.types .work "Call|Local::Steps"
          { name := "Steps", typeName := "int32", defaultValue := "1" } target := by
  obtain ⟨s, report, hcompile, hs, -, hstacks, -, hinits⟩ := compile_armsTree
  have hwithin : s.code.IsWithin [1] 5 := ⟨[1], by rw [hstacks]; rfl, List.prefix_rfl⟩
  obtain ⟨s', first, hs', -, hleast, hcopies, hunique, hplain⟩ :=
    initializers_come_first hcompile rfl innermostFunction_armsTree hwithin
  cases hs.symm.trans hs'
  obtain ⟨hmem, -⟩ := (hunique _).2 rfl
  rw [hinits, List.mem_singleton] at hmem
  obtain rfl : first = 1 := congrArg Initialization.start hmem
  obtain ⟨hstack, i, hi, hinit⟩ := hcopies 1 _ rfl
  obtain ⟨⟨key, source, target, rfl, hkey, hsource, htarget⟩, -⟩ :=
    hplain plainLocals_armsTree _ (List.mem_of_getElem? (i := 1) rfl) i hinit
  cases hkey
  exact ⟨s, report, hcompile, hwithin, hleast, hstack, source, target, hi, hsource, htarget⟩

/-- Each path to the call in an arm sets both locals, begins behind that or jumps over it. -/
theorem Tree.initialized_on_paths_armsTree : ∃ (s : State) (report : Report),
    armsTree.compile tickEnv {} = .ok ⟨.ok (s.program []), report⟩ ∧ s.code.IsWithin [1] 5 ∧
      ∀ front x, s.code.Path (front ++ [x]) → s.code.IsWithin [1] x → ¬ (1 ≤ x ∧ x < 3) →
        (∀ n < 2, 1 + n ∈ front) ∨ (∃ start ∈ (front ++ [x]).head?, 3 ≤ start) ∨
          ∃ i j, [i, j] <:+: front ++ [x] ∧ i < 1 ∧ 3 ≤ j ∧ j ≤ x := by
  obtain ⟨s, report, hcompile, hs, -, hstacks, -, hinits⟩ := compile_armsTree
  have hwithin : s.code.IsWithin [1] 5 := ⟨[1], by rw [hstacks]; rfl, List.prefix_rfl⟩
  obtain ⟨s', first, hs', -, hunique, -, hpaths⟩ :=
    initialized_on_paths hcompile rfl innermostFunction_armsTree hwithin
  cases hs.symm.trans hs'
  obtain ⟨hmem, -⟩ := (hunique _).2 rfl
  rw [hinits, List.mem_singleton] at hmem
  obtain rfl : first = 1 := congrArg Initialization.start hmem
  exact ⟨s, report, hcompile, hwithin, hpaths⟩

/-- The locals are set in the first arm. The path `0`, `5` comes to the call in the second arm, inside the
same call site, without that. -/
theorem armsTree_not_initialized : ∃ (s : State) (report : Report),
    armsTree.compile tickEnv {} = .ok ⟨.ok (s.program []), report⟩ ∧
      armsTree.innermostFunction [1] = .ok (some countFunction) ∧ s.initializers = [⟨[1], 1, 3⟩] ∧
      s.code.Path ([0] ++ [5]) ∧ s.code.IsWithin [1] 5 ∧ ¬ s.code.IsWithin [1] 0 ∧ 1 ∉ [0] ∧ 2 ∉ [0] := by
  obtain ⟨s, report, hcompile, -, hcode, hstacks, hentries, hinits⟩ := compile_armsTree
  have hflow : s.code.Flows 0 5 := ⟨_, by rw [hcode]; rfl, by decide⟩
  refine ⟨s, report, hcompile, rfl, hinits, ⟨by simpa using hflow, "Go", 0, by simp [hentries], rfl⟩,
    ⟨[1], by rw [hstacks]; rfl, List.prefix_rfl⟩, ?_, by decide, by decide⟩
  rintro ⟨stack, hstack, hprefix⟩
  rw [hstacks] at hstack
  cases hstack
  exact absurd (List.prefix_nil.1 hprefix) (by decide)

/-! ## Two defaults with one key -/

/-- Calls inside two call sites. The defaults of the locals have one key,
`Function::Sum::Local::Step::Local::Total::Const`. -/
def namesakeTree : Tree where
  graph := {
    nodes := [⟨"Go", .event "Go", [], none⟩, ⟨"First", .functionReference "Sum", [], none⟩,
      ⟨"Second", .functionReference "Sum::Local::Step", [], none⟩, ⟨"Tick", .unit "tick", [], none⟩] }
  functions := [
    { name := "Sum", locals := [{ name := "Step::Local::Total", typeName := "int32", defaultValue := "1" }] },
    { name := "Sum::Local::Step", locals := [{ name := "Total", typeName := "int32", defaultValue := "2" }] }]
  exprs := [
    { kind := .entry, name := "Go", children := [1, 2], proxy := some ⟨[], .node 0⟩ },
    { kind := .call, name := "Tick", proxy := some ⟨[1], .node 3⟩ },
    { kind := .call, name := "Tick", proxy := some ⟨[2], .node 3⟩ }]
  roots := [0]

theorem issues_namesakeTree : namesakeTree.issues tickEnv = .ok [] := rfl

theorem lowered_namesakeTree : ∃ s : State, namesakeTree.lowered tickEnv {} = .ok s ∧
    s.code.callStacks = [[1], [1], [2], [2], []] ∧
    s.code.instructions[2]? = some (.copy ⟨.literal, 0, none⟩ ⟨.work, 1, none⟩) ∧
    s.storage.literals.registers.map Register.defaultValues = [["1"]] ∧ s.report.errors = 0 := by
  exact Checked.exists_ok_of_any (by decide +kernel)

/-- The first code inside the second call site sets its local to `1`, the default of the other function's
local, where `2` is declared; no literal has that value. -/
theorem namesakeTree_wrong_default : ∃ (s : State) (report : Report) (v : LocalVariable),
    namesakeTree.compile tickEnv {} = .ok ⟨.ok (s.program []), report⟩ ∧
      namesakeTree.innermostFunction [2] = .ok (some { name := "Sum::Local::Step", locals := [v] }) ∧
      (tickEnv.types.decode v.typeName v.defaultValue).run = .ok (.ok "2") ∧
      s.code.callStacks = [[1], [1], [2], [2], []] ∧
      s.code.instructions[2]? = some (.copy ⟨.literal, 0, none⟩ ⟨.work, 1, none⟩) ∧
      s.storage.literals.registers.map Register.defaultValues = [["1"]] := by
  obtain ⟨s, hs, hstacks, hcopy, hliterals, herrors⟩ := lowered_namesakeTree
  obtain ⟨report, hcompile⟩ := Tree.exists_compile_of_lowered issues_namesakeTree hs herrors
  exact ⟨s, report, _, hcompile, rfl, by decide +kernel, hstacks, hcopy, hliterals⟩

end NodeGraph
