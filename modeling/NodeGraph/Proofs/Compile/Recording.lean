import NodeGraph.Proofs.Compile.Sound
import NodeGraph.Proofs.Lowering.CallStacks

/-!
# Compilation with and without call stacks

Recording call stacks changes nothing but the record (`compilePartial_unrecorded`): the outcome, the report
and every other part of the program are the same, faults included.
-/
namespace NodeGraph

namespace Lowering

variable {cx : Context}

/-- The result of a run without the record. -/
def unrecordedRun (r : Unit × State) : Unit × State := (r.1, r.2.unrecorded)

/-- Coupled runs differ only in the record. -/
theorem eq_of_recordMeets {x y : Checked (Unit × State)}
    (h : cx.recordCoupling.Meets (fun _ u _ s => cx.recordCoupling.rel u s) x y) :
    y = x.map unrecordedRun ∧ ∀ r, x = .ok r → r.2.Recorded cx.pass := by
  cases x with
  | error f => cases y with
    | error f' => exact ⟨congrArg Except.error (h trivial).symm, fun _ h => nomatch h⟩
    | ok r' => exact absurd trivial h
  | ok r => cases y with
    | error f' => exact absurd trivial h
    | ok r' =>
      obtain ⟨hs, hu⟩ := h trivial
      refine ⟨congrArg Except.ok (Prod.ext rfl hs), ?_⟩
      rintro _ ⟨⟩
      exact hu

theorem Context.checkWatches_unrecorded {u : State} (hu : u.Recorded cx.pass) :
    (cx.recording false).checkWatches u.unrecorded = ((cx.recording true).checkWatches u).map unrecordedRun ∧
      ∀ r, (cx.recording true).checkWatches u = .ok r → r.2.Recorded cx.pass := by
  have hwalks : cx.recordCoupling.Walks True (cx.recording true).checkWatches
      (cx.recording false).checkWatches fun _ _ => True := by
    refine Coupling.walks_forM fun path _ => Coupling.walks_lift_bind fun r _ => ?_
    cases r with
    | some _ => exact Coupling.walks_pure fun _ => trivial
    | none => exact ⟨keeps_reportWarning _ _, keeps_reportWarning _ _, fun _ => Coupling.Lawful.warning _ _⟩
  exact eq_of_recordMeets ((hwalks.steps trivial ⟨rfl, hu⟩).mono fun _ _ _ _ h => h.1)

variable (cx) in
/-- A pass from states that differ only in the record ends in such states. -/
theorem Context.lowerRoots_unrecorded {u : State} {pass : Pass} (hu : u.Recorded pass) :
    (cx.recording false).lowerRoots u.unrecorded = ((cx.recording true).lowerRoots u).map unrecordedRun ∧
      ∀ r, (cx.recording true).lowerRoots u = .ok r → r.2.Recorded cx.pass := by
  have hstart : cx.recordCoupling.rel u.restarted u.unrecorded.restarted :=
    ⟨rfl, hu.size, hu.sites, fun _ _ h => nomatch h⟩
  have hroots := Coupling.walks_roots (C := cx.recordCoupling) fun _ _ => trivial
  exact eq_of_recordMeets ((hroots.steps trivial hstart).mono fun _ _ _ _ h => h.1)

theorem lowerTree_unrecorded (cx : Pass → Context) :
    lowerTree (fun pass => (cx pass).recording false) {} =
        (lowerTree (fun pass => (cx pass).recording true) {}).map unrecordedRun ∧
      ∀ r, lowerTree (fun pass => (cx pass).recording true) {} = .ok r → r.2.Recorded (cx .emit).pass := by
  unfold lowerTree
  simp only [Step.bind_apply]
  have hempty : State.Recorded (cx .setup).pass {} := ⟨rfl, by simp, fun _ _ h => nomatch h⟩
  obtain ⟨hwatches, hr⟩ := Context.checkWatches_unrecorded hempty
  have hwatches : ((cx .setup).recording false).checkWatches {} =
      (((cx .setup).recording true).checkWatches {}).map unrecordedRun := hwatches
  rw [hwatches]
  cases hx : ((cx .setup).recording true).checkWatches {} with
  | error f => exact ⟨rfl, fun _ h => nomatch h⟩
  | ok r =>
    obtain ⟨hsetup, hr1⟩ := Context.lowerRoots_unrecorded (cx .setup) (hr r hx)
    show (((cx .setup).recording false).lowerRoots r.2.unrecorded >>= _) =
        Except.map _ (((cx .setup).recording true).lowerRoots r.2 >>= _) ∧
      ∀ r', ((cx .setup).recording true).lowerRoots r.2 >>= _ = .ok r' → _
    rw [hsetup]
    cases hx1 : ((cx .setup).recording true).lowerRoots r.2 with
    | error f => exact ⟨rfl, fun _ h => nomatch h⟩
    | ok r1 => exact Context.lowerRoots_unrecorded (cx .emit) (hr1 r1 hx1)

end Lowering

/-! ## Programs -/

def Program.unrecorded (p : Program) : Program := { p with bytecode := p.bytecode.unrecorded }

/-- A compilation whose program has no recorded call stacks. -/
def Compilation.unrecorded (c : Compilation (Program × Nat)) : Compilation (Program × Nat) :=
  { c with result := c.result.map fun r => (r.1.unrecorded, r.2) }

namespace Tree

variable (t : Tree) (env : Environment) (options : CompileOptions) (sharing : Sharing)

/-- Lowering with or without a record, until all blocks are closed. -/
theorem loweredWith_recording (record : Bool) :
    t.loweredWith env { options with recordCallStacks := record } sharing =
      Lowering.lowerTree (fun pass => Lowering.Context.recording ⟨t, env, options, sharing, pass⟩ record) {} >>=
        fun r => if r.2.openBlocks = 0 then .ok r.2 else .error (.openBlocks r.2.openBlocks) := rfl

theorem loweredWith_unrecorded :
    t.loweredWith env { options with recordCallStacks := false } sharing =
        (t.loweredWith env { options with recordCallStacks := true } sharing).map Lowering.State.unrecorded ∧
      ∀ s, t.loweredWith env { options with recordCallStacks := true } sharing = .ok s →
        s.code.callStacks.length = s.code.size := by
  obtain ⟨heq, hrecorded⟩ := Lowering.lowerTree_unrecorded fun pass => ⟨t, env, options, sharing, pass⟩
  rw [loweredWith_recording, loweredWith_recording, heq]
  cases hx : Lowering.lowerTree (fun pass =>
      Lowering.Context.recording ⟨t, env, options, sharing, pass⟩ true) {} with
  | error f => exact ⟨rfl, fun _ h => nomatch h⟩
  | ok r =>
    have hsame : (Lowering.unrecordedRun r).2.openBlocks = r.2.openBlocks := rfl
    rw [Except.map, Checked.ok_bind, Checked.ok_bind, hsame]
    split
    · refine ⟨rfl, fun s hs => ?_⟩
      cases hs
      exact (hrecorded r hx).size
    · exact ⟨rfl, fun _ h => nomatch h⟩

theorem lowered_unrecorded :
    t.lowered env { options with recordCallStacks := false } =
        (t.lowered env { options with recordCallStacks := true }).map Lowering.State.unrecorded ∧
      ∀ s, t.lowered env { options with recordCallStacks := true } = .ok s →
        s.code.callStacks.length = s.code.size := by
  unfold lowered
  cases Sharing.ofTree t with
  | error f => exact ⟨rfl, fun _ h => nomatch h⟩
  | ok sharing => exact loweredWith_unrecorded t env options sharing

end Tree

/-- The same compilation with and without call stacks: outcome, report and program are the same but for the
recorded stacks, of which there is one for each instruction or none. -/
theorem compilePartial_unrecorded (t : Tree) (env : Environment) (options : CompileOptions) :
    t.compilePartial env { options with recordCallStacks := false } =
        (t.compilePartial env { options with recordCallStacks := true }).map Compilation.unrecorded ∧
      ∀ {p errors report},
        t.compilePartial env { options with recordCallStacks := true } = .ok ⟨.ok (p, errors), report⟩ →
          p.bytecode.callStacks.length = p.bytecode.size := by
  obtain ⟨heq, hrecorded⟩ := t.lowered_unrecorded env options
  refine ⟨?_, fun {p errors report} h => ?_⟩
  · unfold Tree.compilePartial
    cases t.issues env with
    | error f => rfl
    | ok issues =>
      rw [Checked.ok_bind, Checked.ok_bind]
      dsimp only
      split
      · rfl
      · rw [heq]
        cases t.lowered env { options with recordCallStacks := true } <;> rfl
  · obtain ⟨-, s, hs, rfl, -⟩ := Tree.compilePartial_eq_ok_iff.1 h
    exact hrecorded s hs

/-- Without call stacks the branch has the same program, and with them one for each instruction. -/
theorem compilePartial_unrecorded_forkTree : ∃ p report,
    forkTree.compilePartial forkEnv {} = .ok ⟨.ok (p, 0), report⟩ ∧ p.bytecode.instructions = forkCode ∧
      p.bytecode.callStacks.length = p.bytecode.size ∧
      forkTree.compilePartial forkEnv { recordCallStacks := false } = .ok ⟨.ok (p.unrecorded, 0), report⟩ := by
  obtain ⟨p, report, s, hp, -, rfl, hcode⟩ := compilePartial_forkTree
  obtain ⟨heq, hrecorded⟩ := compilePartial_unrecorded forkTree forkEnv {}
  refine ⟨_, report, hp, hcode, hrecorded hp, ?_⟩
  rw [show forkTree.compilePartial forkEnv { recordCallStacks := false } = _ from heq]
  show (forkTree.compilePartial forkEnv {}).map Compilation.unrecorded = _
  rw [hp]
  rfl

end NodeGraph
