import Mathlib
import NodeGraph.Proofs.Bytecode.Execution
import NodeGraph.Proofs.Compile.Producers
import NodeGraph.Proofs.Compile.Recording
import NodeGraph.Proofs.Compile.SharedOperands
import NodeGraph.Proofs.Compile.SharedRegisters

/-!
# Sharing storage and leaving out copies

The walks with and without sharing are coupled, so the code of the one is that of the other with registers
renamed and without the copies that are idle then (`Tree.elides_of_lowered`). Where only current registers
are read, both make the same calls. That a link feeds each pin once is not enough for this: a call that
changes one pin of a group changes what the others hold (`fanTree`).
-/
namespace NodeGraph

namespace Lowering

variable {cx : Context} {sharing : Sharing} {fin : Finish} {u s u' s' : State}

/-- Two passes from renamed states end in renamed states. -/
theorem Context.Couples.renamed_of_lowerRoots (h : cx.Couples sharing fin) (hroots : ∀ e ∈ cx.tree.roots, fin.known e)
    (hrel : fin.Renamed cx (cx.sharedBy sharing) u.restarted s.restarted) (hu : cx.lowerRoots u = .ok ((), u'))
    (hs : (cx.sharedBy sharing).lowerRoots s = .ok ((), s')) (hgood : fin.Reaches u' s') :
    fin.Renamed cx (cx.sharedBy sharing) u' s' := by
  have := h.lawful
  have hmeets := (Coupling.walks_roots (C := cx.renameCoupling sharing fin) hroots).steps trivial hrel
  have hu : cx.tree.roots.forM cx.lower u.restarted = .ok ((), u') := hu
  have hs : (cx.sharedBy sharing).tree.roots.forM (cx.sharedBy sharing).lower s.restarted = .ok ((), s') := hs
  rw [hu, hs] at hmeets
  exact (hmeets hgood).1

end Lowering

namespace Tree

open Lowering

variable {t : Tree} {env : Environment} {options : CompileOptions} {sharing sharing' : Sharing}
  {u s checked prepared checked' prepared' : State} {ρ : Cell → Cell}

section Ends

variable (hu : t.Passes env options sharing checked prepared u)
  (hs : t.Passes env options sharing' checked' prepared' s)
  (hρ : Context.Renames ⟨t, env, options, sharing, .emit⟩ sharing' u.storage s.storage ρ)

include hu hs

/-- The setup passes may end as both lowerings do. -/
theorem Passes.reaches (hfailed : u.failed = []) (hfailed' : s.failed = []) (herrors : u.report.errors = 0)
    (herrors' : s.report.errors = 0) (sites : List CallStack) (known : ExprId → Prop) :
    Finish.Reaches ⟨u, s, env.externals, ρ, sites, known⟩ prepared prepared' where
  storage := hu.emit.storage
  storage' := hs.emit.storage
  failed := List.subset_nil.1 (hfailed ▸ hu.emit.failed)
  failed' := List.subset_nil.1 (hfailed' ▸ hs.emit.failed)
  errors := Nat.le_zero.1 (herrors ▸ hu.emit.errors)
  errors' := Nat.le_zero.1 (herrors' ▸ hs.emit.errors)
  begins := hu.emit.shape

include hρ

theorem Passes.couples_setup (hrecord : options.recordCallStacks = false) :
    Context.Couples ⟨t, env, options, sharing, .setup⟩ sharing' ⟨u, s, env.externals, ρ, [], fun _ => True⟩ where
  unrecorded := hrecord
  renames := ⟨hρ.external, hρ.key, hρ.pin⟩
  named := hu.named
  named' := hs.named
  child _ _ _ _ := trivial
  sites h := nomatch h

/-- The emit pass only comes to what the setup pass has met. -/
theorem Passes.couples_emit (hrecord : options.recordCallStacks = false) (hfailed : prepared.failed = []) :
    Context.Couples ⟨t, env, options, sharing, .emit⟩ sharing'
      ⟨u, s, env.externals, ρ, prepared.prepared, prepared.Met⟩ := by
  exact
    { unrecorded := hrecord
      renames := hρ
      named := hu.named
      named' := hs.named
      child := fun he hx hkind hc => (hu.covered hfailed he).1 _ hx hkind _ hc
      sites := fun _ _ _ _ he hx hp => (hu.covered hfailed he).2 _ _ hx hp }

theorem elides_of_passes (hrecord : options.recordCallStacks = false) (hfailed : u.failed = [])
    (hfailed' : s.failed = []) (herrors : u.report.errors = 0) (herrors' : s.report.errors = 0) :
    (u.program env.externals).Elides ρ (s.program env.externals) := by
  have hreaches := hu.reaches (ρ := ρ) hs hfailed hfailed' herrors herrors'
  -- Nothing is lowered before the setup passes.
  have hchecked : Finish.Renamed ⟨u, s, env.externals, ρ, [], fun _ => True⟩ ⟨t, env, options, sharing, .setup⟩
      (Context.sharedBy ⟨t, env, options, sharing, .setup⟩ sharing') checked checked' := by
    have hstored := Checked.Ends.of_ok Context.stored_checkWatches hu.checks
    have hstored' := Checked.Ends.of_ok Context.stored_checkWatches hs.checks
    refine Context.renamed_stored ?_ hstored hstored'
    exact ⟨rfl, rfl, rfl, rfl, rfl, rfl, rfl, fun _ => .none, Program.aligned_empty, nofun, nofun⟩
  have hsetup := (hu.couples_setup hs hρ hrecord).renamed_of_lowerRoots (fun _ _ => trivial)
    { hchecked with visited := rfl, frames := rfl, callStack := rfl, sites := fun h => nomatch h }
    hu.prepares hs.prepares (hreaches _ _)
  -- The emit passes go on from there, and know the locals of every call site they will enter.
  have hfailed1 : prepared.failed = [] := (hreaches [] fun _ => True).failed
  have hemit := (hu.couples_emit hs hρ hrecord hfailed1).renamed_of_lowerRoots hu.met
    { failed := hsetup.failed
      visited := rfl
      callStack := rfl
      frames := rfl
      prepared := hsetup.prepared
      initialized := hsetup.initialized
      openBlocks := hsetup.openBlocks
      operands := hsetup.operands
      code := hsetup.code
      sites := fun _ _ h => nomatch h
      kept := fun site hsite => ⟨hu.kept herrors hsite, hs.kept herrors' (hsetup.prepared ▸ hsite)⟩ }
    hu.emits hs.emits ⟨.refl _, .refl _, hfailed, hfailed', herrors, herrors', List.prefix_rfl⟩
  exact hemit.code.elides

end Ends

/-- Lowering without a record differs in the recorded call stacks only. -/
theorem exists_callStacks (h : t.loweredWith env options sharing = .ok s) :
    ∃ callStacks, t.loweredWith env { options with recordCallStacks := false } sharing =
      .ok { s with code := { s.code with callStacks } } := by
  cases hrecord : options.recordCallStacks with
  | false =>
    rw [show { options with recordCallStacks := false } = options by rw [← hrecord]]
    exact ⟨s.code.callStacks, h⟩
  | true =>
    rw [(t.loweredWith_unrecorded env options sharing).1,
      show { options with recordCallStacks := true } = options by rw [← hrecord], h]
    exact ⟨[], rfl⟩

/-- Lowering with other sharing leads to the same code, up to a renaming of registers and copies that are
idle then. -/
theorem elides_of_lowered (hu : t.loweredWith env options sharing = .ok u)
    (hs : t.loweredWith env options sharing' = .ok s) (hfailed : u.failed = []) (hfailed' : s.failed = [])
    (herrors : u.report.errors = 0) (herrors' : s.report.errors = 0)
    (hρ : Context.Renames ⟨t, env, options, sharing, .emit⟩ sharing' u.storage s.storage ρ) :
    (u.program env.externals).Elides ρ (s.program env.externals) := by
  obtain ⟨callStacks, hu⟩ := exists_callStacks hu
  obtain ⟨callStacks', hs⟩ := exists_callStacks hs
  obtain ⟨checked, prepared, hpasses⟩ := exists_passes hu
  obtain ⟨checked', prepared', hpasses'⟩ := exists_passes hs
  have h := elides_of_passes hpasses hpasses' ⟨hρ.external, hρ.key, hρ.pin⟩ rfl hfailed hfailed' herrors herrors'
  exact ⟨h.entries, h.size, h.code⟩

/-- A register named by a path is that of a group without variables. -/
theorem exists_pin_of_lookup (hs : t.loweredWith env options sharing = .ok s) {key : String} {o : Operand}
    (ho : s.storage.keyed.lookup key = some o) (hkey : ':' ∉ key.toList) :
    ∃ p : Proxy, p.IsRoot t.graph ∧
      (sharing.group p).findM? (m := Checked) (isVariablePin t.graph) = .ok none ∧
      (sharing.representative p).path t.graph = .ok key := by
  obtain ⟨table, r, build, -, -, hmakes, -⟩ := makes_of_named hs (named_of_lowered hs ho)
  obtain ⟨p, hp, hnone, hpath, -⟩ := hmakes.of_colon_notMem hkey
  exact ⟨p, hp, hnone, hpath⟩

/-- Let each pin be the target of one link at most, and names be different and without separators, so that
without sharing each root pin has a register of its own. Then the compiled program is the one compiled
without sharing, with the register of each pin renamed to that of its group and without the copies that are
idle then. For any host and any entry, both make the same calls with the same values if the program without
sharing reads only registers that are current: those of which no other one of the group was written since
they were written or copied to. -/
theorem performs_iff_unshared {q : Program} {report : Report}
    (h : t.compile env options = .ok ⟨.ok q, report⟩) (hu : t.loweredWith env options {} = .ok u)
    (herrors : u.report.errors = 0) (hnames : t.graph.PlainNames) (hsingle : t.SingleSource)
    (hwrites : t.WritesVariables) :
    ∃ sharing s ρ, Sharing.ofTree t = .ok sharing ∧ t.loweredWith env options sharing = .ok s ∧
      q = s.program env.externals ∧
      Context.Renames ⟨t, env, options, {}, .emit⟩ sharing u.storage s.storage ρ ∧
      (u.program env.externals).Elides ρ q ∧
      ∀ {V S : Type} (host : Host env.catalog V S) (entry : String),
        host.ReadsCurrent (u.program env.externals) q ρ entry → ∀ state calls,
          host.Performs (u.program env.externals) state entry calls ↔ host.Performs q state entry calls := by
  obtain ⟨report', hpartial⟩ := compilePartial_of_compile h
  obtain ⟨hissues, s, hs, rfl, herrors', -⟩ := compilePartial_eq_ok_iff.1 hpartial
  have hvalid := valid_of_issues hissues
  obtain ⟨sharing, hsharing, -, hs, hlowered'⟩ := lowered_of_issues hissues hs
  have hempty : Sharing.ExistsIn t.graph {} := fun _ hgroup => absurd hgroup List.not_mem_nil
  have hlowered : Context.Lowered ⟨t, env, options, {}, .emit⟩ u :=
    (ends_loweredWith hvalid hempty env.types.tolerated_all).of_ok hu
  have hparts := (Sharing.partitions_ofTree hvalid.hasPins).of_ok hsharing
  obtain ⟨ρ, hρ⟩ : ∃ ρ, Context.Renames ⟨t, env, options, {}, .emit⟩ sharing u.storage s.storage ρ :=
    Context.exists_renames rfl hparts (eq_of_variables hsingle hwrites) hnames (exists_pin_of_lookup hs)
      (named_of_lowered hu)
  have helides := elides_of_lowered hu hs (hlowered.sound.failed_eq_nil herrors)
    (hlowered'.sound.failed_eq_nil herrors'.symm) herrors herrors'.symm hρ
  exact ⟨sharing, s, ρ, hsharing, hs, rfl, hρ, helides, fun host entry hreads =>
    host.performs_iff helides hreads⟩

/-- Linked pins have the same type. -/
def LinksAgree (t : Tree) : Prop :=
  ∀ l ∈ t.links, ∀ {i j source target}, l.source.pin? = some i → t.graph.pin? i = some source →
    l.target.pin? = some j → t.graph.pin? j = some target →
    source.typeName = target.typeName ∧ source.isArray = target.isArray

end Tree

/-! ## A value that goes to two calls -/

/-- A call whose result goes to a call of a function and to one that uses it. -/
def fanTree (function : String) (direction : PinDirection) : Tree where
  graph := {
    nodes := [⟨"Go", .event "Go", [], none⟩, ⟨"Make", .unit "make", [0], none⟩,
      ⟨"First", .unit function, [1], none⟩, ⟨"Second", .unit "use", [2], none⟩]
    pins := [
      { node := 1, name := "Value", direction := .output, typeName := "int32" },
      { node := 2, name := "Value", direction, typeName := "int32" },
      { node := 3, name := "Value", direction := .input, typeName := "int32" }] }
  exprs := [
    { kind := .entry, name := "Go", children := [1, 3, 8], proxy := some ⟨[], .node 0⟩ },
    { kind := .call, name := "Make", children := [2], proxy := some ⟨[], .node 1⟩ },
    { kind := .var, name := "Value", proxy := some ⟨[], .pin 0⟩ },
    { kind := .call, name := "First", children := [4], proxy := some ⟨[], .node 2⟩ }] ++
    feedExprs 4 1 0 1 ++
    [{ kind := .call, name := "Second", children := [9], proxy := some ⟨[], .node 3⟩ }] ++
    feedExprs 9 1 0 2
  roots := [0]
  links := [⟨⟨[], .pin 0⟩, ⟨[], .pin 1⟩⟩, ⟨⟨[], .pin 0⟩, ⟨[], .pin 2⟩⟩]

def fanEnv : Environment where
  catalog := ⟨[⟨"make", [⟨"Value", .output⟩]⟩, ⟨"bump", [⟨"Value", .inOut⟩]⟩, ⟨"use", [⟨"Value", .input⟩]⟩]⟩

/-- Numbers, where the first function makes one and the second adds one. -/
def fanHost : Host fanEnv.catalog Nat Unit where
  initial _ := 0
  zero := 0
  increment v := v + 1
  equals v w := if v = w then 1 else 0
  truth v := v ≠ 0
  member v _ := v
  setMember _ _ v := v
  setMember_member _ _ := rfl
  observes _ := true
  call state function read := (state, if function = 0 then [1] else read.map (· + 1))
  arrayReads _ := []
  arrayWrites _ := []
  array _ _ := []
  enterBlock state _ _ := state
  leaveBlock state := state

/-- The code without sharing, where each of three registers is one pin's. -/
def fanCopies (function : Nat) : List Instruction := [
  .execute 0 [⟨.work, 0, none⟩],
  .copy ⟨.work, 0, none⟩ ⟨.work, 1, none⟩,
  .execute function [⟨.work, 1, none⟩],
  .copy ⟨.work, 0, none⟩ ⟨.work, 2, none⟩,
  .execute 2 [⟨.work, 2, none⟩],
  .exit]

/-- The code with sharing, where all three pins have one register. -/
def fanShared (function : Nat) : List Instruction := [
  .execute 0 [⟨.work, 0, none⟩],
  .execute function [⟨.work, 0, none⟩],
  .execute 2 [⟨.work, 0, none⟩],
  .exit]

/-- The functions that the middle call can have, with the direction of its pin and its number. -/
def fanCalls : List (String × PinDirection × Nat) := [("bump", .inOut, 1), ("use", .input, 2)]

section Trees

variable {function : String} {direction : PinDirection} {n : Nat}

theorem singleSource_fanTree : (fanTree function direction).SingleSource := by
  unfold Tree.SingleSource
  show ∀ l ∈ [_, _], ∀ l' ∈ [_, _], _
  decide

theorem plainNames_fanTree : (fanTree function direction).graph.PlainNames := by
  refine .of_pairwise ?_ ?_ ?_ ?_
  · show ∀ node ∈ [_, _, _, _], _
    simp only [List.forall_mem_cons]
    decide
  · show ∀ pin ∈ [_, _, _], _
    simp only [List.forall_mem_cons]
    decide
  · simp [fanTree]
  · simp [fanTree]

theorem target_fanTree {l : ProxyLink} (hl : l ∈ (fanTree function direction).links) :
    l.source = ⟨[], .pin 0⟩ ∧ (l.target = ⟨[], .pin 1⟩ ∨ l.target = ⟨[], .pin 2⟩) := by
  simp only [fanTree, List.mem_cons, List.not_mem_nil, or_false] at hl
  rcases hl with rfl | rfl <;> simp

theorem writesVariables_fanTree : (fanTree function direction).WritesVariables := by
  intro l hl id pin node hid hpin hnode hkind
  rcases (target_fanTree hl).2 with h | h <;>
  · rw [h] at hid
    cases hid
    cases hpin
    cases hnode
    cases hkind

theorem linksAgree_fanTree : (fanTree function direction).LinksAgree := by
  intro l hl i j source target hi hsource hj htarget
  obtain ⟨h, h'⟩ := target_fanTree hl
  rw [h] at hi
  cases hi
  cases hsource
  rcases h' with h' | h' <;>
  · rw [h'] at hj
    cases hj
    cases htarget
    exact ⟨rfl, rfl⟩

theorem fanCalls_cases (h : (function, direction, n) ∈ fanCalls) :
    function = "bump" ∧ direction = .inOut ∧ n = 1 ∨ function = "use" ∧ direction = .input ∧ n = 2 := by
  simpa [fanCalls] using h

/-- Where the register of a result has its first value from. -/
def fanOrigin : Option (Nat ⊕ Register) := some (.inr ⟨"", "int32", 1, false, false, ["0"], 4, 4⟩)

theorem ofTree_fanTree (function : String) (direction : PinDirection) :
    Sharing.ofTree (fanTree function direction) = .ok ⟨[[⟨[], .pin 0⟩, ⟨[], .pin 1⟩, ⟨[], .pin 2⟩]]⟩ := by
  cbv

theorem unshared_fanTree (h : (function, direction, n) ∈ fanCalls) : ∃ u : Lowering.State,
    (fanTree function direction).loweredWith fanEnv {} {} = .ok u ∧ u.report.errors = 0 ∧
      u.code.instructions = fanCopies n ∧ u.code.entries.toList = [("Go", 0)] ∧
      u.storage.keyed = [("Second.Value", ⟨.work, 2, none⟩), ("First.Value", ⟨.work, 1, none⟩),
        ("Make.Value", ⟨.work, 0, none⟩)] ∧ (u.program []).origin ⟨.work, 0⟩ = fanOrigin := by
  rcases fanCalls_cases h with ⟨rfl, rfl, rfl⟩ | ⟨rfl, rfl, rfl⟩
  · exact Checked.exists_ok_of_any (by decide +kernel)
  · exact Checked.exists_ok_of_any (by decide +kernel)

theorem shared_fanTree (h : (function, direction, n) ∈ fanCalls) : ∃ s : Lowering.State,
    (fanTree function direction).lowered fanEnv {} = .ok s ∧ s.report.errors = 0 ∧
      s.code.instructions = fanShared n ∧ s.code.entries.toList = [("Go", 0)] ∧
      s.storage.keyed = [("Make.Value", ⟨.work, 0, none⟩)] ∧ (s.program []).origin ⟨.work, 0⟩ = fanOrigin := by
  rw [Tree.lowered_eq (ofTree_fanTree function direction)]
  rcases fanCalls_cases h with ⟨rfl, rfl, rfl⟩ | ⟨rfl, rfl, rfl⟩
  · exact Checked.exists_ok_of_any (by decide +kernel)
  · exact Checked.exists_ok_of_any (by decide +kernel)

theorem compile_fanTree (h : (function, direction, n) ∈ fanCalls) {s : Lowering.State}
    (hs : (fanTree function direction).lowered fanEnv {} = .ok s) (herrors : s.report.errors = 0) :
    ∃ report, (fanTree function direction).compile fanEnv {} = .ok ⟨.ok (s.program []), report⟩ := by
  have hissues : (fanTree function direction).issues fanEnv = .ok [] := by
    rcases fanCalls_cases h with ⟨rfl, rfl, rfl⟩ | ⟨rfl, rfl, rfl⟩ <;> rfl
  exact Tree.exists_compile_of_lowered hissues hs herrors

end Trees

section Runs

variable {p : Program} {m : Machine Nat Unit} {f k : Nat}

/-- What a call of one of the three functions does. -/
theorem step_fanHost (h : p.bytecode.instructions[m.address]? = some (.execute f [⟨.work, k, none⟩]))
    (hf : f < 3) : fanHost.step p m = some {
      address := m.address + 1
      memory := if f = 2 then m.memory else
        Function.update m.memory ⟨.work, k⟩ (if f = 0 then 1 else m.memory ⟨.work, k⟩ + 1)
      state := ()
      calls := m.calls ++ [(f, [m.memory ⟨.work, k⟩])] } := by
  have hplace : p.place ⟨.work, k, none⟩ = ⟨⟨.work, k⟩, none⟩ := Program.place_of_whole rfl
  have hcases : f = 0 ∨ f = 1 ∨ f = 2 := by omega
  rw [fanHost.step_eq h]
  rcases hcases with rfl | rfl | rfl <;>
    simp [Instruction.next, Host.after, Host.effectAt, Host.effect, Host.reads, Host.writes, Host.storeAll,
      Host.store, Host.load, chosen, Catalog.directions, Catalog.get?, fanHost, fanEnv, hplace]

theorem start_fanHost (a : Nat) : fanHost.start p () a = ⟨a, fun _ => 0, (), []⟩ := by
  have hzero (c : Cell) : (p.origin c).elim fanHost.zero fanHost.initial = 0 := by cases p.origin c <;> rfl
  simp [Host.start, hzero]

/-- With a register for each pin, the last call sees what was made. -/
theorem performs_fanCopies (hcode : p.bytecode.instructions = fanCopies 1)
    (hentries : p.bytecode.entries.toList = [("Go", 0)]) :
    fanHost.Performs p () "Go" [(0, [0]), (1, [1]), (2, [1])] := by
  suffices h : ∃ m, fanHost.Runs p (fanHost.start p () 0) m ∧ m.calls = [(0, [0]), (1, [1]), (2, [1])] by
    obtain ⟨m, hruns, hcalls⟩ := h
    exact ⟨0, m, by simp [hentries], hruns, hcalls⟩
  rw [start_fanHost]
  refine ⟨_, .head (step_fanHost (by rw [hcode]; rfl) (by decide)) <|
    .head (fanHost.step_copy (by rw [hcode]; rfl)) <| .head (step_fanHost (by rw [hcode]; rfl) (by decide)) <|
    .head (fanHost.step_copy (by rw [hcode]; rfl)) <| .head (step_fanHost (by rw [hcode]; rfl) (by decide))
    .refl, ?_⟩
  simp [Host.load, Host.store, Program.place_of_whole, Operand.cell]

/-- With one register, the number of calls made so far is also what it holds, up to the last. -/
theorem calls_of_fanShared (hcode : p.bytecode.instructions = fanShared 1)
    (hruns : fanHost.Runs p (fanHost.start p () 0) m) :
    m.address ≤ 3 ∧ m.calls = [(0, [0]), (1, [1]), (2, [2])].take m.address ∧
      (m.address ≤ 2 → m.memory ⟨.work, 0⟩ = m.address) := by
  rw [start_fanHost] at hruns
  induction hruns with
  | refl => exact ⟨by simp, rfl, fun _ => rfl⟩
  | @tail m m' _ hstep ih =>
    obtain ⟨a, μ, state, calls⟩ := m
    obtain ⟨ha, hcalls, hvalue⟩ := ih
    dsimp only at ha hcalls hvalue
    rcases Nat.lt_or_eq_of_le ha with hlt | rfl
    · interval_cases a <;>
      · rw [step_fanHost (by rw [hcode]; rfl) (by decide)] at hstep
        cases hstep
        simp_all
    · simp [Host.step, hcode, fanShared, Instruction.next] at hstep

theorem not_performs_fanShared (hcode : p.bytecode.instructions = fanShared 1)
    (hentries : p.bytecode.entries.toList = [("Go", 0)]) :
    ¬ fanHost.Performs p () "Go" [(0, [0]), (1, [1]), (2, [1])] := by
  rintro ⟨first, m, hfirst, hruns, hcalls⟩
  obtain rfl : first = 0 := by simpa [hentries] using hfirst
  obtain ⟨ha, htake, -⟩ := calls_of_fanShared hcode hruns
  rw [htake] at hcalls
  generalize m.address = a at ha hcalls
  interval_cases a <;> simp at hcalls

end Runs

/-- The register of each pin becomes the one register. -/
theorem rename_fanTree {u s : Lowering.State} {sharing : Sharing} {ρ : Cell → Cell}
    (hu : u.storage.keyed = [("Second.Value", ⟨.work, 2, none⟩), ("First.Value", ⟨.work, 1, none⟩),
        ("Make.Value", ⟨.work, 0, none⟩)]) (hs : s.storage.keyed = [("Make.Value", ⟨.work, 0, none⟩)])
    (hsharing : Sharing.ofTree (fanTree "use" .input) = .ok sharing)
    (hρ : Lowering.Context.Renames ⟨fanTree "use" .input, fanEnv, {}, {}, .emit⟩ sharing u.storage s.storage ρ) :
    ρ ⟨.work, 0⟩ = ⟨.work, 0⟩ ∧ ρ ⟨.work, 1⟩ = ⟨.work, 0⟩ ∧ ρ ⟨.work, 2⟩ = ⟨.work, 0⟩ := by
  cases (ofTree_fanTree "use" .input).symm.trans hsharing
  have hrename {e : ExprId} {x : Expression} {id : PinId} {path : String} {k : Nat}
      (hx : (fanTree "use" .input).expr? e = some x) (hp : x.proxy = some ⟨[], .pin id⟩)
      (hroot : (fanTree "use" .input).graph.rootPin id = .ok id)
      (hsite : Lowering.Context.rootSite ⟨fanTree "use" .input, fanEnv, {}, {}, .emit⟩ ⟨[], .pin id⟩ =
        .ok (some (.register path)))
      (hsite' : Lowering.Context.rootSite
          ⟨fanTree "use" .input, fanEnv, {}, ⟨[[⟨[], .pin 0⟩, ⟨[], .pin 1⟩, ⟨[], .pin 2⟩]]⟩, .emit⟩ ⟨[], .pin id⟩ =
        .ok (some (.register "Make.Value")))
      (ho : u.storage.keyed.lookup path = some ⟨.work, k, none⟩) : ρ ⟨.work, k⟩ = ⟨.work, 0⟩ := by
    have ho' : s.storage.keyed.lookup "Make.Value" = some ⟨.work, 0, none⟩ := by rw [hs]; rfl
    exact hρ.pin ⟨e, x, hx, .inl hp⟩ rfl hroot hsite hsite' ho ho'
  refine ⟨?_, ?_, ?_⟩
  · exact hrename (e := 2) rfl rfl rfl rfl rfl (by rw [hu]; rfl)
  · exact hrename (e := 4) rfl rfl rfl rfl rfl (by rw [hu]; rfl)
  · exact hrename (e := 9) rfl rfl rfl rfl rfl (by rw [hu]; rfl)

/-- The registers known to be current before each instruction. -/
def fanKnown (a : Nat) : List Cell :=
  [[⟨.work, 0⟩], [⟨.work, 0⟩], [⟨.work, 0⟩, ⟨.work, 1⟩], [⟨.work, 0⟩], [⟨.work, 0⟩, ⟨.work, 2⟩]].getD a []

theorem readsCurrent_fanCopies {p q : Program} {ρ : Cell → Cell} (hcode : p.bytecode.instructions = fanCopies 2)
    (hentries : p.bytecode.entries.toList = [("Go", 0)]) (horigin : p.origin ⟨.work, 0⟩ = q.origin ⟨.work, 0⟩)
    (hρ : ρ ⟨.work, 0⟩ = ⟨.work, 0⟩ ∧ ρ ⟨.work, 1⟩ = ⟨.work, 0⟩ ∧ ρ ⟨.work, 2⟩ = ⟨.work, 0⟩) :
    fanHost.ReadsCurrent p q ρ "Go" := by
  obtain ⟨h0, h1, h2⟩ := hρ
  have hplace {k : Nat} : p.place ⟨.work, k, none⟩ = ⟨⟨.work, k⟩, none⟩ := Program.place_of_whole rfl
  have hlt {a : Nat} {i : Instruction} (hi : p.bytecode.instructions[a]? = some i) : a < 6 := by
    rw [hcode] at hi
    exact (List.getElem?_eq_some_iff.1 hi).1
  refine Host.readsCurrent_of_known fanKnown ?_ ?_ ?_
  · intro first hfirst c hc
    obtain rfl : first = 0 := by simpa [hentries] using hfirst
    obtain rfl : c = ⟨.work, 0⟩ := by simpa [fanKnown] using hc
    rw [h0, horigin]
  · intro a i hi b hb c hc
    have ha := hlt hi
    rw [hcode] at hi
    interval_cases a <;> cases hi <;> simp [Instruction.successors, fanKnown] at hb hc <;> subst hb <;>
      simp [Host.currentAfter, Host.writes, chosen, Catalog.directions, Catalog.get?, fanEnv, overtake, refresh, hplace,
        Program.isIdle, Place.rename, fanKnown, h0, h1, h2] at hc ⊢ <;> grind
  · intro a i hi hidle o ho
    have ha := hlt hi
    rw [hcode] at hi
    interval_cases a <;> cases hi <;>
      simp [Host.reads, chosen, Catalog.directions, Catalog.get?, fanEnv, fanHost, Program.isIdle, hplace,
        Place.rename, h0, h1, h2] at ho hidle <;>
      simp [ho, fanKnown, Operand.cell]

/-- If the calls that are fed only use the value, sharing its register changes nothing. -/
theorem Tree.performs_iff_unshared_fanTree : ∃ u q report,
    (fanTree "use" .input).compile fanEnv {} = .ok ⟨.ok q, report⟩ ∧
      (fanTree "use" .input).loweredWith fanEnv {} {} = .ok u ∧ u.report.errors = 0 ∧
      (fanTree "use" .input).graph.PlainNames ∧ (fanTree "use" .input).SingleSource ∧
      (fanTree "use" .input).WritesVariables ∧ u.code.instructions = fanCopies 2 ∧
      q.bytecode.instructions = fanShared 2 ∧
      ∀ calls, fanHost.Performs (u.program []) () "Go" calls ↔ fanHost.Performs q () "Go" calls := by
  have hcall : ("use", .input, 2) ∈ fanCalls := by simp [fanCalls]
  obtain ⟨u, hu, herrors, hcode, hentries, hkeyed, horigin⟩ := unshared_fanTree hcall
  obtain ⟨s, hs, herrors', hcode', -, hkeyed', horigin'⟩ := shared_fanTree hcall
  obtain ⟨report, hcompile⟩ := compile_fanTree hcall hs herrors'
  obtain ⟨sharing, s', ρ, hsharing, hs', -, hρ, -, hsame⟩ := performs_iff_unshared hcompile hu herrors
    plainNames_fanTree singleSource_fanTree writesVariables_fanTree
  rw [lowered, hsharing, Checked.ok_bind, hs'] at hs
  cases hs
  refine ⟨u, _, report, hcompile, hu, herrors, plainNames_fanTree, singleSource_fanTree,
    writesVariables_fanTree, hcode, hcode', hsame fanHost "Go" ?_ ()⟩
  exact readsCurrent_fanCopies hcode hentries (horigin.trans horigin'.symm)
    (rename_fanTree hkeyed hkeyed' hsharing hρ)

/-- If the first call that is fed changes its value in place, the second sees the change only where the
register is shared. -/
theorem fanTree_not_performs : ∃ u q report calls,
    (fanTree "bump" .inOut).compile fanEnv {} = .ok ⟨.ok q, report⟩ ∧
      (fanTree "bump" .inOut).loweredWith fanEnv {} {} = .ok u ∧ u.report.errors = 0 ∧
      (fanTree "bump" .inOut).graph.PlainNames ∧ (fanTree "bump" .inOut).SingleSource ∧
      (fanTree "bump" .inOut).WritesVariables ∧ (fanTree "bump" .inOut).LinksAgree ∧
      fanHost.Performs (u.program []) () "Go" calls ∧ ¬ fanHost.Performs q () "Go" calls := by
  have hcall : ("bump", .inOut, 1) ∈ fanCalls := by simp [fanCalls]
  obtain ⟨u, hu, herrors, hcode, hentries, -⟩ := unshared_fanTree hcall
  obtain ⟨s, hs, herrors', hcode', hentries', -⟩ := shared_fanTree hcall
  obtain ⟨report, hcompile⟩ := compile_fanTree hcall hs herrors'
  exact ⟨u, _, report, _, hcompile, hu, herrors, plainNames_fanTree, singleSource_fanTree,
    writesVariables_fanTree, linksAgree_fanTree, performs_fanCopies hcode hentries,
    not_performs_fanShared hcode' hentries'⟩

end NodeGraph
