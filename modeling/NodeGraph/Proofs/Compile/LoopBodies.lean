import Mathlib
import NodeGraph.Proofs.Compile.Producers

/-!
# The blocks of loops

A loop has a place for the code of its body, between the begin and the end of its block, and one behind its
jump back for the code of what is to be done when it is completed. A block has its code at its place, unless
it was lowered before: every expression is lowered where it is met first. For a block that was not met before
its loop there are two ways to miss its place (`blocks_in_place`). It is below a value that the loop needs
before it starts, so its code is in front of the loop; or it is to be done when the loop is completed but is
also met in the body, so its code is inside the loop. `nestedTree` has a loop of each sort.
-/
namespace NodeGraph

open Lowering

/-! ## Where the blocks are -/

/-- The instruction at an address was emitted for an expression. -/
def Lowering.State.EmittedFor (s : State) (e : ExprId) (a : Nat) : Prop :=
  ∃ sp ∈ s.spans, sp.expr = e ∧ sp.start ≤ a ∧ a < sp.stop

/-- Where the code of the blocks of a loop is that were not met before it, `older` being what was met. The
values of the pins are lowered in front of the loop. -/
structure Tree.BlocksInPlace (t : Tree) (s : State) (e : ExprId) (older : List ExprId) (pins : List String)
    (l : Loop) (start : Nat) : Prop where
  body : ∀ {z}, t.blockForPin e PinName.execute = .ok (some z) → z ∉ older →
    (∀ {a}, s.EmittedFor z a → l.zero + 3 < a ∧ a < l.last) ∨
      Below t (t.PinVar e pins) z ∧ ∀ {a}, s.EmittedFor z a → start ≤ a ∧ a < l.zero
  completed : ∀ {z}, t.blockForPin e PinName.completed = .ok (some z) → z ∉ older →
    (∀ {a}, s.EmittedFor z a → l.last + 2 < a) ∨
      (Below t (t.PinVar e pins) z ∧ ∀ {a}, s.EmittedFor z a → start ≤ a ∧ a < l.zero) ∨
      (∃ b, t.blockForPin e PinName.execute = .ok (some b) ∧ Relation.ReflTransGen t.IsChild b z) ∧
        ∀ {a}, s.EmittedFor z a → l.zero + 3 < a ∧ a < l.last

namespace Tree

variable {t : Tree} {env : Environment} {options : CompileOptions} {s : State} {e z : ExprId} {start stop : Nat}
  {older newer : List ExprId}

/-- What was met before an expression can be read off from the order in which expressions were met. -/
theorem eq_of_met_before {met rest : List ExprId} (hnodup : met.Nodup) (hmet : met = newer ++ e :: older)
    (hrest : e :: rest <:+ met) : rest = older := by
  obtain ⟨front, hfront⟩ := hrest
  rw [hmet] at hnodup hfront
  obtain ⟨-, hright, hapart⟩ := List.nodup_append.1 hnodup
  have hnew : e ∉ newer := fun hmem => hapart e hmem e List.mem_cons_self rfl
  have hold : e ∉ older := (List.nodup_cons.1 hright).1
  exact ((List.append_cons_inj_of_notMem hnew hold).1 hfront.symm).2.2.symm

/-- Every expression has its code in one place. -/
theorem emittedFor_bounds (hdistinct : (s.spans.map Span.expr).Nodup) {lo hi a : Nat}
    (hlocates : s.Locates z lo hi) (ha : s.EmittedFor z a) : lo ≤ a ∧ a < hi := by
  obtain ⟨sp, hsp, hexpr, hlo, hhi⟩ := hlocates
  obtain ⟨sp', hsp', hexpr', hstart, hstop⟩ := ha
  obtain rfl := List.inj_on_of_nodup_map hdistinct hsp hsp' (hexpr.trans hexpr'.symm)
  omega

/-- The blocks of a loop that were not met before it are in place. -/
theorem LoopBlocks.inPlace {cx : Context} (hlowered : cx.Lowered s) {pins : List String} {l : Loop}
    (h : cx.tree.LoopBlocks s e (e :: older) pins l start stop)
    (hblock : ∀ {pin z}, cx.tree.blockForPin e pin = .ok (some z) → z ≠ e) :
    cx.tree.BlocksInPlace s e older pins l start := by
  obtain ⟨body, completed, hbody, hcompleted, hblocks⟩ := h
  have hmissed {z : ExprId} {a : Nat} (hz : z ∉ s.visited) (ha : s.EmittedFor z a) : False := by
    obtain ⟨sp, hsp, rfl, -⟩ := ha
    exact hz (hlowered.located hsp)
  have hnew {z : ExprId} {pin : String} (hz : cx.tree.blockForPin e pin = .ok (some z)) (hold : z ∉ older) :
      z ∉ e :: older := by simp [hblock hz, hold]
  constructor
  · intro z hz hold
    rw [hbody] at hz
    by_cases hvisited : z ∈ s.visited
    · rcases hblocks.body (Except.ok.inj hz) hvisited (hnew (hbody.trans hz) hold) with hat | ⟨hbelow, hat⟩
      · refine .inl fun {a} ha => ?_
        have := emittedFor_bounds hlowered.distinct hat ha
        omega
      · exact .inr ⟨hbelow, emittedFor_bounds hlowered.distinct hat⟩
    · exact .inl fun ha => (hmissed hvisited ha).elim
  · intro z hz hold
    rw [hcompleted] at hz
    by_cases hvisited : z ∈ s.visited
    · rcases hblocks.completed (Except.ok.inj hz) hvisited (hnew (hcompleted.trans hz) hold) with
        hat | ⟨hbelow, hat⟩ | ⟨⟨b, hb, hbelow⟩, hat⟩
      · refine .inl fun {a} ha => ?_
        have := emittedFor_bounds hlowered.distinct hat ha
        omega
      · exact .inr (.inl ⟨hbelow, emittedFor_bounds hlowered.distinct hat⟩)
      · refine .inr (.inr ⟨⟨b, by rw [hbody, hb], hbelow⟩, fun {a} ha => ?_⟩)
        have := emittedFor_bounds hlowered.distinct hat ha
        omega
    · exact .inl fun ha => (hmissed hvisited ha).elim

/-- A loop over indices or over an array that is lowered without an error encloses its body and is followed
by what is to be done when it is completed, as far as these blocks were not met before the loop. There are
two exceptions: a block below a value that is lowered in front of the loop has its code there, and what is
below the body has its code in the body. Expressions are listed in the order in which they were met, the
newest first, so `older` is what was met when the lowering of the loop began. -/
theorem blocks_in_place (hissues : t.issues env = .ok []) (hs : t.lowered env options = .ok s)
    (hsp : ⟨e, start, stop⟩ ∈ s.spans) (hok : e ∉ s.failed) (hmet : s.visited = newer ++ e :: older) :
    (t.kind e = .ok .call → ∀ function, t.nodeKindOf e = .ok (some (.forLoop function)) →
      ∃ l number signature operands, env.catalog.find? function = some (number, signature) ∧
        l.step = .execute number operands ∧ t.LoopCode s e l start stop ∧
        t.BlocksInPlace s e older (loopPins signature.parameters) l start) ∧
    (t.kind e = .ok .array → t.nodeKindOf e = .ok (some (.array .iterate)) →
      ∃ l operands, l.step = .array .iterate operands ∧ t.LoopCode s e l start stop ∧
        t.BlocksInPlace s e older ArrayOp.iterate.pinNames l start) := by
  obtain ⟨sharing, -, -, -, hlowered⟩ := lowered_of_issues hissues hs
  have hvalid := valid_of_issues hissues
  obtain ⟨rest, horder, hformed⟩ := hlowered.formed hsp hok
  obtain rfl := eq_of_met_before hlowered.nodup hmet horder
  -- A loop is no block.
  have hblock {kind : ExprKind} (hkind : t.kind e = .ok kind) (hne : kind ≠ .block) {pin : String} {z : ExprId}
      (hz : t.blockForPin e pin = .ok (some z)) : z ≠ e := by
    obtain ⟨x, hx, -⟩ := Checked.bind_eq_ok.1 hkind
    obtain ⟨r, hr, hmem⟩ := hvalid.exists_blockForPin (lt_of_expr? (expr_eq_ok.1 hx)) pin
    rw [hz] at hr
    obtain ⟨v, -, -, hkindz⟩ := hmem z (Except.ok.inj hr ▸ rfl)
    rintro rfl
    exact hne (Except.ok.inj (hkind.symm.trans hkindz))
  constructor
  · intro hkind function hfunction
    obtain ⟨l, number, signature, operands, hfind, hstep, hl, hblocks⟩ :=
      (hformed _ hkind).blocks function hfunction
    exact ⟨l, number, signature, operands, hfind, hstep, hl,
      hblocks.inPlace hlowered (hblock hkind (by decide))⟩
  · intro hkind hop
    obtain ⟨l, operands, hstep, hl, hblocks⟩ := (hformed _ hkind).blocks hop
    exact ⟨l, operands, hstep, hl, hblocks.inPlace hlowered (hblock hkind (by decide))⟩

end Tree

/-! ## Two loops that miss a place -/

def nestedGraph : Graph where
  nodes := [⟨"Go", .event "Go", [], none⟩, ⟨"First", .forLoop "below", [0, 1, 2, 3, 4], none⟩,
    ⟨"Each", .array .iterate, [5, 6, 7, 8, 9, 10, 11], none⟩, ⟨"Tick", .unit "tick", [], none⟩,
    ⟨"Tock", .unit "tock", [], none⟩, ⟨"Tack", .unit "tack", [], none⟩]
  pins := [
    { node := 1, name := "ExecuteContext", direction := .inOut, typeName := executeType },
    { node := 1, name := "Count", direction := .input, typeName := "int32", defaultValue := "3" },
    { node := 1, name := "Index", direction := .output, typeName := "int32" },
    { node := 1, name := "Continue", direction := .hidden, typeName := "bool" },
    { node := 1, name := "Completed", direction := .output, typeName := executeType },
    { node := 2, name := "ExecuteContext", direction := .inOut, typeName := executeType },
    { node := 2, name := "Array", direction := .input, typeName := "int32", isArray := true },
    { node := 2, name := "Element", direction := .output, typeName := "int32" },
    { node := 2, name := "Index", direction := .output, typeName := "int32" },
    { node := 2, name := "Count", direction := .output, typeName := "int32" },
    { node := 2, name := "Ratio", direction := .output, typeName := "float" },
    { node := 2, name := "Continue", direction := .hidden, typeName := "bool" }]

/-- A loop whose block for completion is also in its body, and a loop whose body is also below its array. -/
def nestedTree : Tree where
  graph := nestedGraph
  exprs := [
    { kind := .entry, name := "Go", children := [1, 7], proxy := some ⟨[], .node 0⟩ },
    { kind := .call, name := "First", children := [2, 3, 4, 5, 6], proxy := some ⟨[], .node 1⟩ },
    { kind := .var, name := "ExecuteContext", children := [15], proxy := some ⟨[], .pin 0⟩ },
    { kind := .literal, name := "Count", proxy := some ⟨[], .pin 1⟩ },
    { kind := .var, name := "Index", proxy := some ⟨[], .pin 2⟩ },
    { kind := .var, name := "Continue", proxy := some ⟨[], .pin 3⟩ },
    { kind := .var, name := "Completed", children := [16], proxy := some ⟨[], .pin 4⟩ },
    { kind := .array, name := "Each", children := [8, 9, 10, 11, 12, 13, 14], proxy := some ⟨[], .node 2⟩ },
    { kind := .var, name := "ExecuteContext", children := [17], proxy := some ⟨[], .pin 5⟩ },
    { kind := .var, name := "Array", children := [17], proxy := some ⟨[], .pin 6⟩ },
    { kind := .var, name := "Element", proxy := some ⟨[], .pin 7⟩ },
    { kind := .var, name := "Index", proxy := some ⟨[], .pin 8⟩ },
    { kind := .var, name := "Count", proxy := some ⟨[], .pin 9⟩ },
    { kind := .var, name := "Ratio", proxy := some ⟨[], .pin 10⟩ },
    { kind := .var, name := "Continue", proxy := some ⟨[], .pin 11⟩ },
    { kind := .block, name := "Tick", children := [18, 16] },
    { kind := .block, name := "Tock", children := [19] },
    { kind := .block, name := "Tack", children := [20] },
    { kind := .call, name := "Tick", proxy := some ⟨[], .node 3⟩ },
    { kind := .call, name := "Tock", proxy := some ⟨[], .node 4⟩ },
    { kind := .call, name := "Tack", proxy := some ⟨[], .node 5⟩ }]
  roots := [0]

def nestedEnv : Environment where
  catalog := ⟨[⟨"below", [⟨"Count", .input⟩, ⟨"Index", .input⟩, ⟨"Continue", .output⟩]⟩, ⟨"tick", []⟩,
    ⟨"tock", []⟩, ⟨"tack", []⟩]⟩

theorem issues_nestedTree : nestedTree.issues nestedEnv = .ok [] := rfl

theorem lowered_nestedTree : ∃ s : State, nestedTree.lowered nestedEnv {} = .ok s ∧
    s.visited = [14, 13, 12, 11, 10, 20, 17, 9] ++ 7 :: ([19, 16, 18, 15, 5, 4, 3] ++ 1 :: [0]) ∧
    ⟨1, 0, 9⟩ ∈ s.spans ∧ ⟨7, 9, 17⟩ ∈ s.spans ∧ ⟨16, 5, 6⟩ ∈ s.spans ∧ ⟨17, 9, 10⟩ ∈ s.spans ∧
    s.failed = [] := by
  exact Checked.exists_ok_of_any (by decide +kernel)

/-- Neither the blocks `15` and `16` of the first loop nor the body `17` of the second one is met before its
loop. -/
theorem Tree.blocks_in_place_nestedTree : ∃ (s : State) (l l' : Loop),
    nestedTree.issues nestedEnv = .ok [] ∧ nestedTree.lowered nestedEnv {} = .ok s ∧
      1 ∉ s.failed ∧ 7 ∉ s.failed ∧ nestedTree.LoopCode s 1 l 0 9 ∧ nestedTree.LoopCode s 7 l' 9 17 ∧
      nestedTree.BlocksInPlace s 1 [0] ["Count", "Index", "Continue"] l 0 ∧
      nestedTree.BlocksInPlace s 7 ([19, 16, 18, 15, 5, 4, 3] ++ 1 :: [0]) ArrayOp.iterate.pinNames l' 9 := by
  obtain ⟨s, hs, hmet, hsp, hsp', -, -, hnone⟩ := lowered_nestedTree
  have hok : 1 ∉ s.failed := by simp [hnone]
  have hok' : 7 ∉ s.failed := by simp [hnone]
  have hmet' : s.visited = ([14, 13, 12, 11, 10, 20, 17, 9] ++ 7 :: [19, 16, 18, 15, 5, 4, 3]) ++ 1 :: [0] := hmet
  obtain ⟨l, number, signature, operands, hfind, -, hl, hplaces⟩ :=
    (blocks_in_place issues_nestedTree hs hsp hok hmet').1 rfl "below" rfl
  obtain ⟨l', operands', -, hl', hplaces'⟩ := (blocks_in_place issues_nestedTree hs hsp' hok' hmet).2 rfl rfl
  obtain rfl : _ = signature := (Prod.mk.inj (Option.some.inj hfind)).2
  exact ⟨s, l, l', issues_nestedTree, hs, hok, hok', hl, hl', hplaces, hplaces'⟩

/-- The first loop has the code of its block for completion inside, at the address `5`. The second loop has
its body in front, at the address `9`. -/
theorem nestedTree_not_in_place : ∃ s : State,
    nestedTree.issues nestedEnv = .ok [] ∧ nestedTree.lowered nestedEnv {} = .ok s ∧ s.failed = [] ∧
      s.visited = [14, 13, 12, 11, 10, 20, 17, 9] ++ 7 :: ([19, 16, 18, 15, 5, 4, 3] ++ 1 :: [0]) ∧
      (nestedTree.blockForPin 1 PinName.execute = .ok (some 15) ∧
        nestedTree.blockForPin 1 PinName.completed = .ok (some 16) ∧ 15 ∉ [0] ∧ 16 ∉ [0] ∧
        (∃ l, nestedTree.LoopCode s 1 l 0 9) ∧
        ∀ l, nestedTree.LoopCode s 1 l 0 9 → ∃ a, s.EmittedFor 16 a ∧ ¬ l.last + 2 < a) ∧
      nestedTree.blockForPin 7 PinName.execute = .ok (some 17) ∧
        nestedTree.blockForPin 7 PinName.completed = .ok none ∧ 17 ∉ [19, 16, 18, 15, 5, 4, 3] ++ 1 :: [0] ∧
        (∃ l, nestedTree.LoopCode s 7 l 9 17) ∧
        ∀ l, nestedTree.LoopCode s 7 l 9 17 → ∃ a, s.EmittedFor 17 a ∧ ¬ (l.zero + 3 < a ∧ a < l.last) := by
  obtain ⟨s, hs, hmet, hsp, hsp', hblock, hblock', hnone⟩ := lowered_nestedTree
  obtain ⟨sharing, -, -, -, hlowered⟩ := Tree.lowered_of_issues issues_nestedTree hs
  obtain ⟨l, number, operands, hl, -⟩ := hlowered.shaped hsp (by simp [hnone]) _ rfl "below" rfl
  obtain ⟨l', operands', hl', -⟩ := hlowered.shaped hsp' (by simp [hnone]) _ rfl rfl
  refine ⟨s, issues_nestedTree, hs, hnone, hmet, ⟨rfl, rfl, by decide, by decide, ⟨l, hl⟩, fun l hl => ?_⟩,
    rfl, rfl, by decide, ⟨l', hl'⟩, fun l hl => ?_⟩
  · obtain ⟨body, -, hloop⟩ := hl.loop
    have := hloop.lt_last
    exact ⟨5, ⟨_, hblock, rfl, by decide, by decide⟩, by omega⟩
  · have := hl.start_le
    exact ⟨9, ⟨_, hblock', rfl, by decide, by decide⟩, by omega⟩

end NodeGraph
