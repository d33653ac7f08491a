import Mathlib
import NodeGraph.Proofs.Lowering.Pass

/-!
# Compiled programs

Whatever program a partial compilation gives, also one that skipped expressions, can be run: its jumps
are structured (`compilePartial_structured`) and its operands name storage that is there
(`compilePartial_operandsFit`). A tree without issues has such a program, and is compiled without a
fault, unless a type contains itself (`compilePartial_total`).
-/
namespace NodeGraph

variable {t : Tree} {env : Environment} {options : CompileOptions} {p : Program} {errors : Nat}
  {report : Report}

/-! ## Compilation and lowering -/

theorem Report.errors_foldl_error (l : List Issue) (r : Report) :
    (l.foldl (fun r i => r.error i.subject i.message) r).errors = r.errors + l.length := by
  induction l generalizing r with
  | nil => rfl
  | cons i l ih =>
    rw [List.foldl_cons, ih, List.length_cons]
    show r.errors + 1 + l.length = r.errors + (l.length + 1)
    omega

theorem Report.errors_ofIssues (l : List Issue) : (Report.ofIssues l).errors = l.length := by
  unfold ofIssues
  rw [errors_foldl_error]
  exact Nat.zero_add _

namespace Tree

/-- A partial compilation has a program if the tree has no issues, and it is the program of the state
that lowering ends in. -/
theorem compilePartial_eq_ok_iff :
    t.compilePartial env options = .ok ⟨.ok (p, errors), report⟩ ↔ t.issues env = .ok [] ∧
      ∃ s, t.lowered env options = .ok s ∧ p = s.program env.externals ∧ errors = s.report.errors ∧
        report = s.report.info options .tree s.summary := by
  unfold compilePartial
  rw [Checked.bind_eq_ok]
  constructor
  · rintro ⟨issues, hissues, h⟩
    dsimp only at h
    split at h
    · cases h
    · next hnone =>
      rw [Report.errors_ofIssues] at hnone
      have hnil : issues = [] := List.length_eq_zero_iff.1 (by omega)
      subst hnil
      obtain ⟨s, hs, h⟩ := Checked.bind_eq_ok.1 h
      cases h
      exact ⟨hissues, s, hs, rfl, rfl, rfl⟩
  · rintro ⟨hissues, s, hs, rfl, rfl, rfl⟩
    refine ⟨[], hissues, ?_⟩
    dsimp only
    rw [if_neg (by rw [Report.errors_ofIssues]; simp), hs]
    rfl

theorem lowered_eq {sharing : Sharing} (hsharing : Sharing.ofTree t = .ok sharing) :
    t.lowered env options = t.loweredWith env options sharing := by
  rw [lowered, hsharing, Checked.ok_bind]

/-- What a tree without issues is lowered to. -/
theorem lowered_of_issues {s : Lowering.State} (hissues : t.issues env = .ok [])
    (hs : t.lowered env options = .ok s) :
    ∃ sharing, Sharing.ofTree t = .ok sharing ∧ sharing.ExistsIn t.graph ∧
      t.loweredWith env options sharing = .ok s ∧
      Lowering.Context.Lowered ⟨t, env, options, sharing, .emit⟩ s := by
  have hvalid := valid_of_issues hissues
  obtain ⟨sharing, hsharing, hexists⟩ := Sharing.exists_ofTree hvalid
  rw [lowered_eq hsharing] at hs
  exact ⟨sharing, hsharing, hexists, hs, (ends_loweredWith hvalid hexists env.types.tolerated_all).of_ok hs⟩

/-- The state behind a compiled program. -/
theorem exists_lowered (h : t.compilePartial env options = .ok ⟨.ok (p, errors), report⟩) :
    ∃ s sharing, t.lowered env options = .ok s ∧ p = s.program env.externals ∧
      errors = s.report.errors ∧ Lowering.Context.Lowered ⟨t, env, options, sharing, .emit⟩ s := by
  obtain ⟨hissues, s, hs, hp, he, -⟩ := compilePartial_eq_ok_iff.1 h
  obtain ⟨sharing, hlowered⟩ :=
    (ends_lowered (valid_of_issues hissues) env.types.tolerated_all).of_ok hs
  exact ⟨s, sharing, hs, hp, he, hlowered⟩

end Tree

/-! ## Jumps and blocks -/

/-- The blocks opened less the blocks closed before an address. -/
def Bytecode.depth (b : Bytecode) (a : Nat) : Int := blockDepth 0 b.instructions a

/-- Every jump lands inside the code, and inside the code of an expression if it comes from there; the
blocks nest, and a jump goes to an address of the same depth. -/
structure Bytecode.Structured (b : Bytecode) (spans : List Lowering.Span) : Prop where
  forward : ∀ {i x d}, b.instructions[i]? = some x → x.forward? = some d → 1 ≤ d ∧ i + d ≤ b.size
  backward : ∀ {i x d}, b.instructions[i]? = some x → x.backward? = some d → 1 ≤ d ∧ d ≤ i
  nested : ∀ a, 0 ≤ b.depth a
  balanced : b.depth b.size = 0
  level : ∀ {i x target}, b.instructions[i]? = some x → x.jumpTarget? i = some target →
    b.depth i = b.depth target
  inside : ∀ sp ∈ spans, sp.start ≤ sp.stop ∧ sp.stop ≤ b.size ∧
    ∀ {i x target}, sp.start ≤ i → i < sp.stop → b.instructions[i]? = some x →
      x.jumpTarget? i = some target → sp.start ≤ target ∧ target ≤ sp.stop

section Structured

variable {own : Nat → ExprId → List Instruction → List Lowering.Span → Prop} {b : Bytecode}
  {spans : List Lowering.Span} {ms : List Nat} {i a base : Nat} {x : Instruction}

theorem at_zero : At 0 b.instructions i x ↔ b.instructions[i]? = some x := by
  simp [At]

/-- Jumps in the code of an expression stay there. -/
theorem Layout.lands_span (h : Layout own base b.instructions spans ms) {sp : Lowering.Span}
    (hsp : sp ∈ spans) {target : Nat} (hstart : sp.start ≤ a) (hstop : a < sp.stop)
    (hx : At base b.instructions a x) (htarget : x.jumpTarget? a = some target) :
    sp.start ≤ target ∧ target ≤ sp.stop := by
  obtain ⟨front, part, rest, _, _, hcode, hfirst, hlast, hpart, -⟩ := h.exists_part sp hsp
  have hat : At sp.start part a x := by
    rw [hcode] at hx
    rw [hfirst]
    exact at_part hx (by omega) (by omega)
  rcases jump_of_jumpTarget? hat htarget with hf | hb
  · have := hpart.lands.forward hf; omega
  · have := hpart.lands.loop hb; omega

theorem structured_of_layout (h : Layout own 0 b.instructions spans ms) : b.Structured spans where
  forward hx hd := by
    have := h.lands.forward ⟨_, at_zero.2 hx, _, hd, rfl⟩
    rw [Nat.zero_add] at this
    exact ⟨by omega, this.2.2⟩
  backward hx hd := by
    have := h.lands.backward (at_zero.2 hx) hd
    omega
  nested := h.level.nested
  balanced := h.level.balanced (by rw [Nat.zero_add]; exact Nat.le_refl _)
  level hx htarget := by
    rcases jump_of_jumpTarget? (at_zero.2 hx) htarget with hf | hb
    · exact h.level.forward hf
    · exact h.level.backward hb
  inside sp hsp := by
    have hbounds := h.span_bounds hsp
    rw [Nat.zero_add] at hbounds
    refine ⟨hbounds.2.1, hbounds.2.2, fun hstart hstop hx htarget => ?_⟩
    exact h.lands_span hsp hstart hstop (at_zero.2 hx) htarget

end Structured

/-! ## A branch with a shared producer -/

def forkGraph : Graph where
  nodes := [⟨"Go", .event "Go", [], none⟩, ⟨"Seed", .unit "seed", [0], none⟩,
    ⟨"Make", .unit "make", [1, 2], none⟩, ⟨"Left", .unit "use", [3], none⟩,
    ⟨"Right", .unit "use", [4], none⟩, ⟨"Fork", .branch, [5, 6, 7], none⟩]
  pins := [
    { node := 1, name := "Value", direction := .output, typeName := "int32" },
    { node := 2, name := "Seed", direction := .input, typeName := "int32" },
    { node := 2, name := "Value", direction := .output, typeName := "int32" },
    { node := 3, name := "Value", direction := .input, typeName := "int32" },
    { node := 4, name := "Value", direction := .input, typeName := "int32" },
    { node := 5, name := "Condition", direction := .input, typeName := "bool" },
    { node := 5, name := "True", direction := .output, typeName := executeType },
    { node := 5, name := "False", direction := .output, typeName := executeType }]

def forkEnv : Environment where
  catalog := ⟨[⟨"seed", [⟨"Value", .output⟩]⟩, ⟨"make", [⟨"Seed", .input⟩, ⟨"Value", .output⟩]⟩,
    ⟨"use", [⟨"Value", .input⟩]⟩]⟩

/-- The expressions from `first` on that feed the pin `target` from the pin `source` of a producer. -/
def feedExprs (first producer : ExprId) (source target : PinId) : List Expression := [
  { kind := .var, name := "Value", children := [first + 1], proxy := some ⟨[], .pin target⟩ },
  { kind := .assign, name := "Assign", children := [first + 2], proxy := some ⟨[], .pin target⟩,
    source := some ⟨[], .pin source⟩ },
  { kind := .cachedValue, name := "Cache", children := [producer, first + 3] },
  { kind := .var, name := "Value", proxy := some ⟨[], .pin source⟩ }]

/-- A branch with a call in each arm. Both calls are fed by one producer, which is fed by another. -/
def forkTree : Tree where
  graph := forkGraph
  exprs := [
    { kind := .entry, name := "Go", children := [1], proxy := some ⟨[], .node 0⟩ },
    { kind := .branch, name := "Fork", children := [2, 3, 4], proxy := some ⟨[], .node 5⟩ },
    { kind := .var, name := "Condition", proxy := some ⟨[], .pin 5⟩ },
    { kind := .var, name := "True", children := [5], proxy := some ⟨[], .pin 6⟩ },
    { kind := .var, name := "False", children := [6], proxy := some ⟨[], .pin 7⟩ },
    { kind := .block, name := "True", children := [7] },
    { kind := .block, name := "False", children := [12] },
    { kind := .call, name := "Left", children := [8], proxy := some ⟨[], .node 3⟩ }] ++
    feedExprs 8 17 2 3 ++
    [{ kind := .call, name := "Right", children := [13], proxy := some ⟨[], .node 4⟩ }] ++
    feedExprs 13 17 2 4 ++
    [{ kind := .call, name := "Make", children := [18, 22], proxy := some ⟨[], .node 2⟩ }] ++
    feedExprs 18 23 0 1 ++
    [{ kind := .var, name := "Value", proxy := some ⟨[], .pin 2⟩ },
     { kind := .call, name := "Seed", children := [24], proxy := some ⟨[], .node 1⟩ },
     { kind := .var, name := "Value", proxy := some ⟨[], .pin 0⟩ }]
  roots := [0]
  links := [⟨⟨[], .pin 0⟩, ⟨[], .pin 1⟩⟩, ⟨⟨[], .pin 2⟩, ⟨[], .pin 3⟩⟩, ⟨⟨[], .pin 2⟩, ⟨[], .pin 4⟩⟩]

def forkCode : List Instruction := [
  .jumpIf ⟨.work, 0, none⟩ 5 false,
  .execute 0 [⟨.work, 1, none⟩],
  .execute 1 [⟨.work, 1, none⟩, ⟨.work, 2, none⟩],
  .execute 2 [⟨.work, 2, none⟩],
  .jumpForward 2,
  .execute 2 [⟨.work, 2, none⟩],
  .exit]

theorem issues_forkTree : forkTree.issues forkEnv = .ok [] := rfl

theorem ofTree_forkTree : Sharing.ofTree forkTree =
    .ok ⟨[[⟨[], .pin 2⟩, ⟨[], .pin 3⟩, ⟨[], .pin 4⟩], [⟨[], .pin 0⟩, ⟨[], .pin 1⟩]]⟩ := by cbv

theorem lowered_forkTree : ∃ s, forkTree.lowered forkEnv {} = .ok s ∧
    s.code.instructions = forkCode ∧ s.code.entries.toList = [("Go", 0)] ∧
    s.spans.filter (fun sp => sp.expr ∈ [7, 12, 17, 23]) = [⟨12, 5, 6⟩, ⟨7, 1, 4⟩, ⟨17, 1, 3⟩, ⟨23, 1, 2⟩] ∧
    s.report.errors = 0 := by
  rw [Tree.lowered_eq ofTree_forkTree]
  exact Checked.exists_ok_of_any (by decide +kernel)

theorem compilePartial_forkTree : ∃ p report s,
    forkTree.compilePartial forkEnv {} = .ok ⟨.ok (p, 0), report⟩ ∧
      forkTree.lowered forkEnv {} = .ok s ∧ p = s.program [] ∧ s.code.instructions = forkCode := by
  obtain ⟨s, hs, hcode, -, -, herrors⟩ := lowered_forkTree
  exact ⟨_, _, s, Tree.compilePartial_eq_ok_iff.2 ⟨issues_forkTree, s, hs, rfl, herrors.symm, rfl⟩, hs,
    rfl, hcode⟩

/-! ## Jumps -/

/-- The jumps of a compiled program are structured, and every expression that the emit pass met has one
part of the code. -/
theorem compilePartial_structured
    (h : t.compilePartial env options = .ok ⟨.ok (p, errors), report⟩) :
    ∃ s, t.lowered env options = .ok s ∧ p = s.program env.externals ∧
      (∀ e ∈ s.visited, ∃ sp ∈ s.spans, sp.expr = e) ∧ (s.spans.map Lowering.Span.expr).Nodup ∧
      p.bytecode.Structured s.spans := by
  obtain ⟨s, sharing, hs, rfl, -, hlowered⟩ := Tree.exists_lowered h
  obtain ⟨ms, hlayout⟩ := hlowered.layout
  exact ⟨s, hs, rfl, fun e he => hlowered.finished he, hlowered.distinct, structured_of_layout hlayout⟩

theorem compilePartial_structured_forkTree : ∃ p report s,
    forkTree.compilePartial forkEnv {} = .ok ⟨.ok (p, 0), report⟩ ∧
      p.bytecode.instructions = forkCode ∧ forkTree.lowered forkEnv {} = .ok s ∧
        p.bytecode.Structured s.spans := by
  obtain ⟨p, report, s, hp, hs, rfl, hcode⟩ := compilePartial_forkTree
  obtain ⟨s', hs', -, -, -, hstructured⟩ := compilePartial_structured hp
  exact ⟨_, report, s', hp, hcode, hs', hstructured⟩

/-! ## Operands -/

/-- The operand names a register of the program, and its property path is one of that register; or it
names an external variable as a whole. -/
def Program.Holds (p : Program) (o : Operand) : Prop := o.Fits p.memory? p.externals.length

/-- Every operand of a program names storage that is there, calls are calls of the catalog with an
operand for each parameter, and array operations have all their operands. -/
structure Program.OperandsFit (p : Program) (catalog : Catalog) : Prop where
  instructions : ∀ i ∈ p.bytecode.instructions, i.HasArity catalog ∧ ∀ o ∈ i.operands, p.Holds o
  mirrors : ∀ entry ∈ p.debugMirrors.toList, p.Holds entry.1 ∧ ∀ m ∈ entry.2, p.Holds m
  pinPaths : ∀ entry ∈ p.pinPaths.toList, p.Holds entry.2

/-- The program of a state has the storage of the state. -/
theorem Program.holds_of_state {s : Lowering.State} {o : Operand} (h : s.Holds env o) :
    (s.program env.externals).Holds o := by
  have htables : (s.program env.externals).memory? = s.storage.table? := by
    funext space
    cases space <;> rfl
  unfold Program.Holds
  rw [htables]
  exact h

theorem compilePartial_operandsFit
    (h : t.compilePartial env options = .ok ⟨.ok (p, errors), report⟩) :
    p.OperandsFit env.catalog := by
  obtain ⟨s, sharing, -, rfl, -, hlowered⟩ := Tree.exists_lowered h
  have hsound := hlowered.sound
  constructor
  · intro i hi
    obtain ⟨harity, hoperands⟩ := hsound.code i hi
    exact ⟨harity, fun o ho => Program.holds_of_state (hoperands o ho)⟩
  · intro entry he
    obtain ⟨hlive, hmirrors⟩ := hsound.mirrors entry he
    exact ⟨Program.holds_of_state hlive, fun m hm => Program.holds_of_state (hmirrors m hm)⟩
  · intro entry he
    exact Program.holds_of_state (hsound.pinPaths entry he)

theorem compilePartial_operandsFit_forkTree : ∃ p report,
    forkTree.compilePartial forkEnv {} = .ok ⟨.ok (p, 0), report⟩ ∧
      p.bytecode.instructions = forkCode ∧ p.OperandsFit forkEnv.catalog := by
  obtain ⟨p, report, s, hp, -, rfl, hcode⟩ := compilePartial_forkTree
  exact ⟨_, report, hp, hcode, compilePartial_operandsFit hp⟩

/-! ## Totality -/

/-- A tree without issues is compiled without a fault, whatever its child lists and options are, if no
type contains itself. -/
theorem compilePartial_total (hissues : t.issues env = .ok []) (htypes : env.types.Acyclic)
    (options : CompileOptions) :
    ∃ p errors report, t.compilePartial env options = .ok ⟨.ok (p, errors), report⟩ := by
  have hends : Checked.Ends _ (t.lowered env options) _ :=
    Tree.ends_lowered (Tree.valid_of_issues hissues) htypes.tolerated_none
  obtain ⟨s, hs, -⟩ := hends.exists_ok
  exact ⟨_, _, _, Tree.compilePartial_eq_ok_iff.2 ⟨hissues, s, hs, rfl, rfl, rfl⟩⟩

theorem compilePartial_total_forkTree :
    forkTree.issues forkEnv = .ok [] ∧ forkEnv.types.Acyclic ∧
      ∃ p errors report, forkTree.compilePartial forkEnv {} = .ok ⟨.ok (p, errors), report⟩ :=
  ⟨issues_forkTree, TypeRegistry.builtin_acyclic,
    compilePartial_total issues_forkTree TypeRegistry.builtin_acyclic {}⟩

end NodeGraph
