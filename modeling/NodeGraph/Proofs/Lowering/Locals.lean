import NodeGraph.Proofs.Lowering.Walk

/-!
# Locals and argument frames

Before an expression is lowered, the locals of the call sites around it are prepared or initialized and
their argument frames entered. None of this meets an expression: it finds operands, and the code it
emits is copies.
-/
namespace NodeGraph.Lowering.Context

variable {cx : Context} {F : Fault → Prop} {depth : Nat} {e : ExprId} {s s' s'' : State}
  {callSite stack : CallStack}

/-- What is done before an expression is lowered: it meets no expression, and emits copies. -/
structure Initializes (s s' : State) : Prop where
  visited : s'.visited = s.visited
  code : ∃ block, s'.code.instructions = s.code.instructions ++ block ∧
    ∀ x ∈ block, ∃ source target, x = Instruction.copy source target

theorem Initializes.trans (h : Initializes s s') (h' : Initializes s' s'') : Initializes s s'' := by
  obtain ⟨block, hcode, hblock⟩ := h.code
  obtain ⟨block', hcode', hblock'⟩ := h'.code
  refine ⟨h'.visited.trans h.visited, block ++ block', by rw [hcode', hcode, List.append_assoc], ?_⟩
  intro x hx
  exact (List.mem_append.1 hx).elim (hblock x) (hblock' x)

theorem Initializes.of_quiet (h : Quiet s s') : Initializes s s' :=
  ⟨h.visited, [], by rw [h.code, List.append_nil], by simp⟩

/-- Steps of initialization, one after the other. -/
theorem runs_forM {α : Type} {l : List α} {f : α → Step PUnit} (hw : cx.Within depth e s)
    (hf : ∀ a ∈ l, ∀ s', cx.Within depth e s' →
      cx.Runs F depth e s' (f a) fun _ s'' => Initializes s' s'') :
    cx.Runs F depth e s (l.forM f) fun _ s' => Initializes s s' := by
  refine Step.ends_forM (fun _ s' => cx.Within depth e s' ∧ cx.Lowers (cx.tree.Involves e) s s' ∧
    Initializes s s') ⟨hw, .refl s, .of_quiet (.refl s)⟩ ?_
  rintro done a rest rfl s1 ⟨w1, l1, h1⟩
  exact Step.Ends.mono (hf a (by simp) s1 w1) fun _ s2 h => ⟨h.1, l1.trans h.2.1, h1.trans h.2.2⟩

/-- A quiet step that ends in a sound state. -/
theorem runs_of_quiet {m : Step PUnit} (hw : cx.Within depth e s)
    (h : Step.Ends F s m fun _ s' => s'.Sound cx.tree cx.env ∧ Quiet s s') :
    cx.Runs F depth e s m fun _ s' => Initializes s s' :=
  Step.Ends.mono h fun _ _ h => ⟨hw.of_quiet h.1 h.2, lowers_of_quiet h.2, .of_quiet h.2⟩

/-! ## Argument frames -/

theorem exists_capture (hr : cx.Ready F) {site : NodeId} {node : Node}
    (hsite : cx.tree.graph.node? site = some node) :
    ∃ frame, ArgumentFrame.capture cx.tree.graph site = .ok frame := by
  unfold ArgumentFrame.capture
  obtain ⟨pins, hpins⟩ := Checked.exists_mapM (f := cx.tree.graph.pin) (l := node.pins) fun p hp => by
    obtain ⟨pin, hpin, -⟩ := hr.tree.graph.listed hsite hp
    exact ⟨pin, Graph.pin_eq_ok.2 hpin⟩
  rw [Graph.node_eq_ok.2 hsite, Checked.ok_bind, hpins]
  exact ⟨_, rfl⟩

theorem runs_enterFrames (hr : cx.Ready F) (hw : cx.Within depth e s) (hstack : stack.ExistsIn cx.tree.graph) :
    cx.Runs F depth e s (cx.enterFrames stack) fun _ s' => Initializes s s' := by
  unfold enterFrames
  obtain ⟨entered, hentered⟩ := Checked.exists_mapM (f := ArgumentFrame.capture cx.tree.graph)
    (l := stack.drop (commonFrames s.frames stack)) fun site hsite => by
      obtain ⟨node, hnode⟩ := hstack site (List.mem_of_mem_drop hsite)
      exact exists_capture hr hnode
  refine runs_of_quiet hw (Step.ends_get_bind.2 ?_)
  refine Step.ends_bind.2 (Step.ends_lift.2 ?_)
  rw [hentered, Checked.ends_ok, Step.ends_set]
  exact ⟨{ hw.sound with }, { Quiet.refl s with }⟩

/-! ## Locals -/

theorem ends_prepareLocals (hr : cx.Ready F) (hs : s.Sound cx.tree cx.env)
    (hsite : callSite.ExistsIn cx.tree.graph) :
    Step.Ends F s (cx.prepareLocals callSite) fun _ s' =>
      s'.Sound cx.tree cx.env ∧ Quiet s s' := by
  unfold prepareLocals
  obtain ⟨function, hfunction⟩ := Tree.exists_innermostFunction hsite
  rw [hfunction]
  refine Step.ends_bind.2 (Step.ends_lift.2 (Checked.ends_ok.2 ?_))
  split
  · next site function _ =>
    refine Step.ends_forM (fun _ s' => s'.Sound cx.tree cx.env ∧ Quiet s s') ⟨hs, .refl s⟩ ?_
    rintro done v rest - s1 ⟨h1, q1⟩
    have hrun := hr.resolves_localOperand h1 hsite function.name v
    unfold Resolves Attempt.Ends at hrun
    refine Step.ends_bind.2 (hrun.mono ?_)
    rintro (error | operand) s2 h2
    · refine Step.ends_modify.2 ⟨{ h2.1 with reported := fun _ => Nat.succ_pos _ }, ?_⟩
      exact q1.trans (h2.2.1.trans { Quiet.refl s2 with errors := Nat.le_succ _ })
    · exact ⟨h2.1, q1.trans h2.2.1⟩
  · exact ⟨hs, .refl s⟩

theorem runs_emitInitializers (hpass : cx.pass = .emit) (hw : cx.Within depth e s)
    (hsite : callSite.ExistsIn cx.tree.graph) :
    cx.Runs F depth e s (cx.emitInitializers callSite) fun _ s' => Initializes s s' := by
  unfold emitInitializers
  obtain ⟨function, hfunction⟩ := Tree.exists_innermostFunction hsite
  refine .ok_bind hfunction ?_
  cases function with
  | none => exact .pure hw (.of_quiet (.refl s))
  | some function =>
    refine runs_forM hw fun v _ s1 w1 => ?_
    obtain ⟨key, hkey⟩ := exists_localKey hsite v.name
    refine .ok_bind hkey (Step.ends_get_bind.2 ?_)
    dsimp only
    split
    · next source target hsource htarget =>
      have haccepts : s1.Accepts cx.env (.copy source target) := by
        simpa [State.Accepts] using ⟨(w1.sound.keyed _ (mem_of_lookup hsource)).1,
          (w1.sound.keyed _ (mem_of_lookup htarget)).1⟩
      refine (runs_emitUnder w1 hpass rfl haccepts).mono fun _ s2 _ _ ⟨happ, hvisited⟩ => ⟨hvisited, _, happ.code, ?_⟩
      simp
    · exact ⟨w1, .refl s1, .of_quiet (.refl s1)⟩

theorem runs_initializeSite (hr : cx.Ready F) (hw : cx.Within depth e s)
    (hsite : callSite.ExistsIn cx.tree.graph) :
    cx.Runs F depth e s (cx.initializeSite callSite) fun _ s' => Initializes s s' := by
  unfold initializeSite
  refine Step.ends_get_bind.2 ?_
  cases hpass : cx.pass with
  | setup =>
    dsimp only
    split
    · exact Runs.pure hw (.of_quiet (.refl s))
    · refine Runs.bind (P := fun _ s' => Initializes s s')
        (runs_of_quiet hw (Step.ends_set.2 ⟨{ hw.sound with }, { Quiet.refl s with }⟩))
        fun _ s1 w1 _ h1 => ?_
      exact (runs_of_quiet w1 (ends_prepareLocals hr w1.sound hsite)).mono fun _ _ _ _ h => h1.trans h
  | emit =>
    dsimp only
    split
    · exact Runs.pure hw (.of_quiet (.refl s))
    · refine Runs.bind (P := fun _ s' => Initializes s s')
        (runs_of_quiet hw (Step.ends_set.2 ⟨{ hw.sound with }, { Quiet.refl s with }⟩))
        fun _ s1 w1 _ h1 => ?_
      split
      · exact .pure w1 h1
      · refine (runs_emitInitializers hpass w1 hsite).bind fun _ s2 w2 _ h2 => ?_
        refine (runs_of_quiet w2 (Step.ends_modify.2 ⟨{ w2.sound with }, { Quiet.refl s2 with }⟩)).mono ?_
        exact fun _ _ _ _ h3 => h1.trans (h2.trans h3)

theorem runs_initializeLocals (hr : cx.Ready F) (hw : cx.Within depth e s)
    (hstack : stack.ExistsIn cx.tree.graph) :
    cx.Runs F depth e s (cx.initializeLocals stack) fun _ s' => Initializes s s' :=
  runs_forM hw fun _ hsite _ w => runs_initializeSite hr w (Tree.existsIn_of_mem_sites hstack hsite)

end NodeGraph.Lowering.Context
