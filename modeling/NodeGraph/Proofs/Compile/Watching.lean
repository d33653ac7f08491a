import Mathlib
import NodeGraph.Proofs.Compile.SharedOperands
import NodeGraph.Proofs.Lowering.Watching

/-!
# Compilation with and without watches

The walks of two compilations that watch different pins are coupled, so they end in states that differ in
their watches. What a program does is not in that part of the state: code, constants, work registers and
the operands of pins are the same (`Tree.watching_keeps_program`).
-/
namespace NodeGraph

namespace Lowering

variable {cx : Context} {pins : List String} {enabled : Bool} {u s u' s' : State}

variable (cx) in
/-- Two passes from states that differ in their watches end in such states, if no expression fails. -/
theorem Context.alike_of_lowerRoots (hg : cx.tree.graph.BareNames) (hsharing : cx.sharing.ExistsIn cx.tree.graph)
    (halike : u.Alike cx.tree.graph s) (hunmirrored : u.Unmirrored cx.tree.graph)
    (hu : cx.lowerRoots u = .ok ((), u')) (hs : (cx.watching pins enabled).lowerRoots s = .ok ((), s'))
    (hfailed : u'.failed = []) (hfailed' : s'.failed = []) :
    u'.Alike cx.tree.graph s' ∧ u'.Unmirrored cx.tree.graph := by
  have := lawful_watchCoupling pins enabled hg hsharing
  have hstart : (cx.watchCoupling pins enabled).rel u.restarted s.restarted := by
    obtain ⟨storage, report, mirrors, rfl, halike⟩ := halike
    exact ⟨⟨storage, report, mirrors, rfl, halike⟩, { hunmirrored with }⟩
  have hmeets := (Coupling.walks_roots (C := cx.watchCoupling pins enabled) fun _ _ => trivial).steps trivial hstart
  have hu : cx.tree.roots.forM cx.lower u.restarted = .ok ((), u') := hu
  have hs : (cx.watching pins enabled).tree.roots.forM (cx.watching pins enabled).lower s.restarted = .ok ((), s') := hs
  rw [hu, hs] at hmeets
  exact (hmeets ⟨hfailed, hfailed'⟩).1

end Lowering

namespace Tree

open Lowering

variable {t : Tree} {env : Environment} {options : CompileOptions} {sharing : Sharing} {pins : List String}
  {enabled : Bool} {u s checked prepared checked' prepared' : State}

/-- So do both passes together. -/
theorem Passes.alike (hg : t.graph.BareNames) (hsharing : sharing.ExistsIn t.graph)
    (hu : t.Passes env options sharing checked prepared u)
    (hs : t.Passes env { options with watchedPins := pins, enablePinWatches := enabled } sharing checked' prepared' s)
    (hfailed : u.failed = []) (hfailed' : s.failed = []) :
    u.Alike t.graph s ∧ u.Unmirrored t.graph := by
  have hleft : State.Alike t.graph {} checked := by
    rw [hu.checked_eq]
    exact ⟨_, _, _, rfl, .refl _⟩
  have hright : State.Alike t.graph {} checked' := by
    rw [hs.checked_eq]
    exact ⟨_, _, _, rfl, .refl _⟩
  have hempty : State.Unmirrored t.graph {} := ⟨nofun, nofun, nofun⟩
  have hsetup := Context.alike_of_lowerRoots ⟨t, env, options, sharing, .setup⟩ hg hsharing
    (hleft.symm.trans hright) (hleft.unmirrored hempty) hu.prepares hs.prepares
    (List.subset_nil.1 (hfailed ▸ hu.emit.failed)) (List.subset_nil.1 (hfailed' ▸ hs.emit.failed))
  exact Context.alike_of_lowerRoots ⟨t, env, options, sharing, .emit⟩ hg hsharing hsetup.1 hsetup.2 hu.emits
    hs.emits hfailed hfailed'

variable {p p' : Program} {report report' : Report}

/-- If names contain no separators, a tree that compiles under two choices of watched pins has the same code,
constants, work registers, external variables and operands of pins in both programs, and no instruction has an
operand in the memory of watches. -/
theorem watching_keeps_program (hnames : t.graph.BareNames) (h : t.compile env options = .ok ⟨.ok p, report⟩)
    (h' : t.compile env { options with watchedPins := pins, enablePinWatches := enabled } = .ok ⟨.ok p', report'⟩) :
    p'.bytecode = p.bytecode ∧ p'.literals = p.literals ∧ p'.work = p.work ∧ p'.externals = p.externals ∧
      p'.pinPaths = p.pinPaths ∧ (∀ i ∈ p.bytecode.instructions, ∀ o ∈ i.operands, o.memory ≠ .debug) ∧
      ∀ i ∈ p'.bytecode.instructions, ∀ o ∈ i.operands, o.memory ≠ .debug := by
  obtain ⟨sharing, checked, prepared, u, hu⟩ := exists_built h
  obtain ⟨sharing', checked', prepared', s, hs⟩ := exists_built h'
  cases hu.ofTree.symm.trans hs.ofTree
  obtain ⟨⟨storage, report, mirrors, rfl, halike⟩, hunmirrored⟩ :=
    hu.passes.alike hnames hu.existsIn hs.passes hu.failed hs.failed
  rw [hu.program, hs.program]
  exact ⟨rfl, halike.literals.symm, halike.work.symm, rfl, rfl, hunmirrored.code, hunmirrored.code⟩

end Tree

theorem bareNames_forkTree : forkTree.graph.BareNames := ⟨by decide, by decide⟩

theorem lowered_forkTree_watched : ∃ s,
    forkTree.lowered forkEnv { watchedPins := ["Make.Value", "Left.Value"] } = .ok s ∧
    s.storage.debug.registers.map Register.name = ["Make.Value::Debug"] ∧ s.report.errors = 0 := by
  rw [Tree.lowered_eq ofTree_forkTree]
  exact Checked.exists_ok_of_any (by decide +kernel)

/-- Two pins of one register are watched by another one, and the code is the same. -/
theorem Tree.watching_keeps_program_forkTree : ∃ p p' report report',
    forkTree.graph.BareNames ∧ forkTree.compile forkEnv {} = .ok ⟨.ok p, report⟩ ∧
      forkTree.compile forkEnv { watchedPins := ["Make.Value", "Left.Value"] } = .ok ⟨.ok p', report'⟩ ∧
      p'.debug.registers.map Register.name = ["Make.Value::Debug"] ∧ p'.bytecode = p.bytecode ∧ p'.work = p.work ∧
      p.bytecode.instructions = forkCode := by
  obtain ⟨u, hu, hcode, -, -, herrors⟩ := lowered_forkTree
  obtain ⟨s, hs, hdebug, herrors'⟩ := lowered_forkTree_watched
  obtain ⟨report, h⟩ := exists_compile_of_lowered issues_forkTree hu herrors
  obtain ⟨report', h'⟩ := exists_compile_of_lowered issues_forkTree hs herrors'
  obtain ⟨hbytecode, -, hwork, -⟩ := watching_keeps_program bareNames_forkTree h h'
  exact ⟨_, _, report, report', bareNames_forkTree, h, h', hdebug, hbytecode, hwork, hcode⟩

end NodeGraph
