import Mathlib
import NodeGraph.Proofs.Bytecode.Path
import NodeGraph.Proofs.Compile.Bounds
import NodeGraph.Proofs.Compile.LoopBodies
import NodeGraph.Proofs.Lowering.Entries

/-!
# Entries end in exits

Control that starts at an entry stays in the code of the entry until it comes to an exit. This takes an exit
in that code. There is one if the entry has no exit among its children, as one is appended then, or if one of
these has its code in its place. But an exit that is below several expressions has its code where it was met
first, and an entry that shares its exit may run on behind its end (`Tree.entries_end_in_exits`). `relayTree`
has two entries that do.
-/
namespace NodeGraph

open Lowering

/-! ## Control that stays -/

namespace Bytecode

variable {b : Bytecode} {lo middle hi a c : Nat}

/-- Control gets from one address to the other. An exit leads nowhere. -/
def Reaches (b : Bytecode) (a c : Nat) : Prop := Relation.ReflTransGen b.Flows a c

/-- Control leaves the addresses from `lo` on only at their end `hi`. -/
def Confines (b : Bytecode) (lo hi : Nat) : Prop :=
  ∀ i j, lo ≤ i → i < hi → b.Flows i j → lo ≤ j ∧ j ≤ hi

theorem Confines.append (h : b.Confines lo middle) (h' : b.Confines middle hi) (hlo : lo ≤ middle)
    (hhi : middle ≤ hi) : b.Confines lo hi := by
  intro i j hi hj hflows
  rcases Nat.lt_or_ge i middle with hlt | hge
  · have := h i j hi hlt hflows
    omega
  · have := h' i j hge hj hflows
    omega

theorem not_flows_exit (h : At 0 b.instructions a .exit) {j : Nat} : ¬ b.Flows a j := by
  rintro ⟨i, hi, hj⟩
  cases (at_zero.1 h).symm.trans hi
  cases hj

/-- With an exit at their end, control does not leave addresses at all. -/
theorem Confines.reaches (h : b.Confines lo hi) (hle : lo ≤ hi) (hexit : At 0 b.instructions hi .exit)
    (hreach : b.Reaches lo c) : lo ≤ c ∧ c ≤ hi := by
  induction hreach with
  | refl => exact ⟨Nat.le_refl lo, hle⟩
  | tail _ hflows ih =>
    rcases Nat.lt_or_eq_of_le ih.2 with hlt | rfl
    · exact h _ _ ih.1 hlt hflows
    · exact absurd hflows (not_flows_exit hexit)

/-- Control leaves the code of an expression only at its end. -/
theorem Structured.confines {spans : List Span} (h : b.Structured spans) {sp : Span} (hsp : sp ∈ spans) :
    b.Confines sp.start sp.stop := by
  obtain ⟨hle, -, hinside⟩ := h.inside sp hsp
  rintro i j hstart hstop ⟨x, hx, hj⟩
  rcases Instruction.eq_succ_or_jumpTarget? hj with rfl | htarget
  · omega
  · exact hinside hstart hstop hx htarget

end Bytecode

namespace Lowering.State

variable {s : State} {lo hi : Nat}

theorem Copies.confines (h : s.Copies lo hi) : s.code.Confines lo hi := by
  rintro i j hlo hhi ⟨x, hx, hj⟩
  obtain ⟨source, target, rfl⟩ := h.2 hlo hhi (at_zero.2 hx)
  obtain rfl : j = i + 1 := List.mem_singleton.1 hj
  omega

theorem Parts.confines (hstructured : s.code.Structured s.spans) {children : List ExprId} (h : s.Parts children lo hi) :
    lo ≤ hi ∧ s.code.Confines lo hi := by
  induction children generalizing lo with
  | nil =>
    obtain rfl : lo = hi := h
    exact ⟨Nat.le_refl lo, fun _ _ hi hj => absurd hj (Nat.not_lt.2 hi)⟩
  | cons c cs ih =>
    obtain ⟨middle, hc, hrest⟩ := h
    obtain ⟨hle, hconfines⟩ := ih hrest
    rcases hc with hsp | rfl
    · have hfirst := (hstructured.inside _ hsp).1
      exact ⟨Nat.le_trans hfirst hle, (hstructured.confines hsp).append hconfines hfirst hle⟩
    · exact ⟨hle, hconfines⟩

end Lowering.State

/-! ## Entries -/

namespace Tree

variable {t : Tree} {env : Environment} {options : CompileOptions} {s : State} {e : ExprId}
  {older : List ExprId} {row : String × Nat} {start stop : Nat}

/-- An entry with its code from `start` to `stop` has exits among its children, but none has its code in its
place: each of them was met before the entry, or has its code inside that of another child. -/
structure SharesExits (t : Tree) (s : State) (e : ExprId) (older : List ExprId) (start stop : Nat) : Prop where
  some_exit : ∃ y, t.IsChild e y ∧ t.kind y = .ok .exit
  elsewhere : ∀ y, t.IsChild e y → t.kind y = .ok .exit → y ∈ older ∨ ∃ z lo hi, z ≠ y ∧ t.IsChild e z ∧
    ⟨z, lo, hi⟩ ∈ s.spans ∧ start ≤ lo ∧ hi ≤ stop ∧ s.Locates y lo hi

/-- Control leaves the code of an entry only at its end, and there is an exit on the way unless the entry shares
its exits. -/
theorem EntryCode.confines (h : t.EntryCode s e (e :: older) row stop) (hkind : t.kind e = .ok .entry)
    (hnone : s.failed = []) (hstructured : s.code.Structured s.spans)
    (hexits : ∀ sp ∈ s.spans, t.kind sp.expr = .ok .exit → s.ExitCode sp.start sp.stop) :
    row.2 ≤ stop ∧ s.code.Confines row.2 stop ∧
      (t.SharesExits s e older row.2 stop ∨ ∀ c, s.code.Reaches row.2 c → row.2 ≤ c ∧ c < stop) := by
  obtain ⟨children, last, hchildren, hcode, hends⟩ := h.code
  obtain ⟨hle, hconfines⟩ := hcode.parts.confines hstructured
  have hchild {y : ExprId} : t.IsChild e y ↔ y ∈ children := by
    obtain ⟨x, hx, hc⟩ := Checked.bind_eq_ok.1 hchildren
    have hx := expr_eq_ok.1 hx
    cases hc
    exact ⟨fun ⟨x', hx', hy⟩ => (Option.some.inj (hx.symm.trans hx')) ▸ hy, fun hy => ⟨x, hx, hy⟩⟩
  rcases hends with ⟨⟨y, hy, hexit⟩, rfl⟩ | ⟨-, hexit, rfl⟩
  · refine ⟨hle, hconfines, ?_⟩
    by_cases hplace : ∃ y front rest lo hi, children = front ++ y :: rest ∧ s.Parts front row.2 lo ∧
        ⟨y, lo, hi⟩ ∈ s.spans ∧ hi ≤ stop ∧ t.kind y = .ok .exit
    · -- Control comes to the code of `y`, and there to an exit.
      obtain ⟨y, front, rest, lo, hi, -, hparts, hsp, hhi, hexit⟩ := hplace
      obtain ⟨last, hcopies, hat, rfl⟩ := hexits _ hsp hexit
      obtain ⟨hfirst, hfront⟩ := hparts.confines hstructured
      refine .inr fun c hreach => ?_
      have := (hfront.append hcopies.confines hfirst hcopies.1).reaches (Nat.le_trans hfirst hcopies.1) hat hreach
      omega
    · refine .inl ⟨⟨y, hchild.2 hy, hexit⟩, fun y hy hexit => ?_⟩
      have hplaced := (hcode.placed y (hchild.1 hy)).resolve_left (by simp [hnone])
      cases hplaced with
      | before hmet =>
        refine .inl ((List.mem_cons.1 hmet).resolve_left ?_)
        rintro rfl
        rw [hkind] at hexit
        cases hexit
      | inPlace heq hparts hsp hhi => exact absurd ⟨y, _, _, _, _, heq, hparts, hsp, hhi, hexit⟩ hplace
      | inside hz hne hsp hlo hhi hlocates =>
        exact .inr ⟨_, _, _, hne, hchild.2 hz, hsp, hlo, hhi, hlocates⟩
  · refine ⟨Nat.le_succ_of_le hle, ?_, .inr fun c hreach => ?_⟩
    · have hlast : s.code.Confines last (last + 1) := fun i j hi hj hflows => by
        obtain rfl : i = last := Nat.le_antisymm (Nat.le_of_lt_succ hj) hi
        exact absurd hflows (Bytecode.not_flows_exit hexit)
      exact hconfines.append hlast hle (Nat.le_succ last)
    · have := hconfines.reaches hle hexit hreach
      omega

/-- Every row of the table of entries leads to an entry, with nothing but the code that sets locals in front of
it. From there control leaves the code of the entry only at its end, and not at all if the entry has no exit
among its children or one with its code in its place. Expressions are listed in the order in which they were
met, the newest first, so `older` is what was met when the lowering of the entry began. -/
theorem entries_end_in_exits {program : Program} {report : Report}
    (h : t.compile env options = .ok ⟨.ok program, report⟩) :
    ∃ s, t.lowered env options = .ok s ∧ program = s.program env.externals ∧
      ∀ name a, (name, a) ∈ program.bytecode.entries.toList → ∃ e start stop older,
        t.kind e = .ok .entry ∧ t.entryName e = .ok name ∧ ⟨e, start, stop⟩ ∈ s.spans ∧
        e :: older <:+ s.visited ∧ s.Copies start a ∧ a ≤ stop ∧ stop ≤ program.bytecode.size ∧
        program.bytecode.Confines a stop ∧
        (t.SharesExits s e older a stop ∨ ∀ c, program.bytecode.Reaches a c → a ≤ c ∧ c < stop) := by
  obtain ⟨report', hpartial⟩ := compilePartial_of_compile h
  obtain ⟨hissues, s, hs, rfl, herrors, -⟩ := compilePartial_eq_ok_iff.1 hpartial
  obtain ⟨sharing, -, hexists, hwith, hlowered⟩ := lowered_of_issues hissues hs
  obtain ⟨checked, prepared, hpasses⟩ := exists_passes hwith
  obtain ⟨-, -, hempty, -⟩ := hpasses.loweredOnce (valid_of_issues hissues) hexists
  obtain ⟨hentered, hexits⟩ := Context.entered_of_lowerRoots rfl hempty hpasses.emits
  obtain ⟨ms, hlayout⟩ := hlowered.layout
  have hstructured := structured_of_layout hlayout
  refine ⟨s, hs, rfl, fun name a hrow => ?_⟩
  obtain ⟨⟨e, start, stop⟩, hsp, older, horder, hkind, hcopies, -, hcode⟩ := hentered _ hrow
  have hnone := hlowered.sound.failed_eq_nil herrors.symm
  obtain ⟨hle, hconfines, hreaches⟩ := hcode.confines hkind hnone hstructured hexits
  exact ⟨e, start, stop, older, hkind, hcode.name, hsp, horder, hcopies, hle, (hstructured.inside _ hsp).2.1,
    hconfines, hreaches⟩

end Tree

/-! ## Entries with one exit -/

def relayGraph : Graph where
  nodes := [⟨"Open", .event "Open", [], none⟩, ⟨"Stop", .event "Stop", [], none⟩, ⟨"Tick", .event "Tick", [], none⟩,
    ⟨"Tock", .event "Tock", [], none⟩, ⟨"Call", .unit "tick", [], none⟩]

/-- Four entries. The first one has no exit, and the others have one together. -/
def relayTree : Tree where
  graph := relayGraph
  exprs := [
    { kind := .entry, name := "Open", children := [4], proxy := some ⟨[], .node 0⟩ },
    { kind := .entry, name := "Stop", children := [7], proxy := some ⟨[], .node 1⟩ },
    { kind := .entry, name := "Tick", children := [5, 7], proxy := some ⟨[], .node 2⟩ },
    { kind := .entry, name := "Tock", children := [6, 7], proxy := some ⟨[], .node 3⟩ },
    { kind := .call, name := "Call", proxy := some ⟨[], .node 4⟩ },
    { kind := .call, name := "Call", proxy := some ⟨[], .node 4⟩ },
    { kind := .call, name := "Call", proxy := some ⟨[], .node 4⟩ },
    { kind := .exit, name := "Exit" }]
  roots := [0, 1, 2, 3]

def relayEnv : Environment where
  catalog := ⟨[⟨"tick", []⟩]⟩

theorem issues_relayTree : relayTree.issues relayEnv = .ok [] := rfl

theorem lowered_relayTree : ∃ s : State, relayTree.lowered relayEnv {} = .ok s ∧
    s.code.instructions = [.execute 0 [], .exit, .exit, .execute 0 [], .execute 0 []] ∧
    s.code.entries.toList = [("Open", 0), ("Stop", 2), ("Tick", 3), ("Tock", 4)] ∧
    s.visited = [6, 3, 5, 2, 7, 1, 4, 0] ∧
    s.spans = [⟨3, 4, 5⟩, ⟨6, 4, 5⟩, ⟨2, 3, 4⟩, ⟨5, 3, 4⟩, ⟨1, 2, 3⟩, ⟨7, 2, 3⟩, ⟨0, 0, 2⟩, ⟨4, 0, 1⟩] ∧
    s.report.errors = 0 := by
  exact Checked.exists_ok_of_any (by decide +kernel)

theorem entry_relayTree {e : ExprId} {name : String} (hkind : relayTree.kind e = .ok .entry)
    (hname : relayTree.entryName e = .ok name) :
    (e, name) ∈ [(0, "Open"), (1, "Stop"), (2, "Tick"), (3, "Tock")] := by
  obtain ⟨x, hx, -⟩ := Checked.bind_eq_ok.1 hkind
  have hlt : e < 8 := Tree.lt_of_expr? (Tree.expr_eq_ok.1 hx)
  interval_cases e <;> first | (obtain rfl := Except.ok.inj hname; simp; done) | cases hkind

/-- The second entry has its exit in its place. The third one has not, but control leaves it only at its end. -/
theorem Tree.entries_end_in_exits_relayTree : ∃ (program : Program) (report : Report),
    relayTree.compile relayEnv {} = .ok ⟨.ok program, report⟩ ∧
      ("Stop", 2) ∈ program.bytecode.entries.toList ∧ (∀ c, program.bytecode.Reaches 2 c → 2 ≤ c ∧ c < 3) ∧
      ("Tick", 3) ∈ program.bytecode.entries.toList ∧ program.bytecode.Confines 3 4 := by
  obtain ⟨s, hs, -, hentries, hvisited, hspans, herrors⟩ := lowered_relayTree
  obtain ⟨report, hcompile⟩ := exists_compile_of_lowered issues_relayTree hs herrors
  obtain ⟨s', hs', -, hrows⟩ := entries_end_in_exits hcompile
  obtain rfl : s = s' := Except.ok.inj (hs.symm.trans hs')
  have hrow {row : String × Nat} (h : row ∈ [("Open", 0), ("Stop", 2), ("Tick", 3), ("Tock", 4)]) :
      row ∈ (s.program relayEnv.externals).bytecode.entries.toList := by
    show row ∈ s.code.entries.toList
    rwa [hentries]
  have hstop : ("Stop", 2) ∈ (s.program relayEnv.externals).bytecode.entries.toList := hrow (by simp)
  have htick : ("Tick", 3) ∈ (s.program relayEnv.externals).bytecode.entries.toList := hrow (by simp)
  refine ⟨_, report, hcompile, hstop, fun c hreach => ?_, htick, ?_⟩
  · obtain ⟨e, start, stop, older, hkind, hname, hsp, horder, -, -, -, -, hends⟩ := hrows _ _ hstop
    obtain rfl : e = 1 := by simpa using entry_relayTree hkind hname
    obtain ⟨rfl, rfl⟩ : start = 2 ∧ stop = 3 := by simpa [hspans] using hsp
    refine hends.resolve_left (fun hshares => ?_) c hreach
    have hmet : s.visited = [6, 3, 5, 2, 7] ++ 1 :: [4, 0] := hvisited
    obtain rfl : older = [4, 0] := eq_of_met_before (by rw [hvisited]; decide) hmet horder
    rcases hshares.elsewhere 7 ⟨_, rfl, by simp⟩ rfl with hold | ⟨z, lo, hi, hne, ⟨x, hx, hz⟩, -⟩
    · exact absurd hold (by decide)
    · cases hx
      exact hne (List.mem_singleton.1 hz)
  · obtain ⟨e, start, stop, older, hkind, hname, hsp, -, -, -, -, hconfines, -⟩ := hrows _ _ htick
    obtain rfl : e = 2 := by simpa using entry_relayTree hkind hname
    obtain ⟨rfl, rfl⟩ : start = 3 ∧ stop = 4 := by simpa [hspans] using hsp
    exact hconfines

/-- All roots are entries, but control that starts at the third one runs into the code of the fourth, and from
there off the end of the program. -/
theorem relayTree_runs_on : ∃ (program : Program) (report : Report) (s : State),
    (∀ e ∈ relayTree.roots, relayTree.kind e = .ok .entry) ∧
      relayTree.compile relayEnv {} = .ok ⟨.ok program, report⟩ ∧ relayTree.lowered relayEnv {} = .ok s ∧
      program = s.program [] ∧ ⟨2, 3, 4⟩ ∈ s.spans ∧ relayTree.entryName 2 = .ok "Tick" ∧
      ("Tick", 3) ∈ program.bytecode.entries.toList ∧ ⟨3, 4, 5⟩ ∈ s.spans ∧
      ("Tock", 4) ∈ program.bytecode.entries.toList ∧ program.bytecode.Reaches 3 4 ∧
      program.bytecode.Reaches 3 5 ∧ program.bytecode.size = 5 := by
  obtain ⟨s, hs, hcode, hentries, -, hspans, herrors⟩ := lowered_relayTree
  obtain ⟨report, hcompile⟩ := Tree.exists_compile_of_lowered issues_relayTree hs herrors
  have hflows {i : Nat} (hi : s.code.instructions[i]? = some (.execute 0 [])) : s.code.Flows i (i + 1) :=
    ⟨_, hi, List.mem_singleton_self _⟩
  have hfirst : s.code.Flows 3 4 := hflows (by simp [hcode])
  have hsecond : s.code.Flows 4 5 := hflows (by simp [hcode])
  refine ⟨_, report, s, by decide, hcompile, hs, rfl, by simp [hspans], rfl, ?_, by simp [hspans], ?_,
    .single hfirst, .tail (.single hfirst) hsecond, ?_⟩
  · show _ ∈ s.code.entries.toList
    simp [hentries]
  · show _ ∈ s.code.entries.toList
    simp [hentries]
  · show s.code.instructions.length = 5
    rw [hcode]
    rfl

end NodeGraph
