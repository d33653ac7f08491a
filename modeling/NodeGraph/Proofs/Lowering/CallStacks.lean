import NodeGraph.Proofs.Lowering.CoupledWalk

/-!
# Recording call stacks

Whether call stacks are recorded shows nowhere but in the recorded stacks. The one place that reads them is
`initializeSite`, which skips a call site if an instruction inside it was emitted. That never happens: code
inside a call site is only emitted after the site was noted as initialized (`Recorded.sites`), so the record
never knows of a site that the list of initialized sites does not know. The two walks are coupled by
forgetting the record.
-/
namespace NodeGraph

namespace CallStack

variable {stack site : CallStack}

theorem mem_sites : site ∈ stack.sites ↔ site ≠ [] ∧ site <+: stack := by
  unfold sites
  rw [List.mem_map]
  constructor
  · rintro ⟨depth, hdepth, rfl⟩
    have hlt := List.mem_range.1 hdepth
    exact ⟨List.ne_nil_of_length_pos (by rw [List.length_take]; omega), List.take_prefix _ _⟩
  · rintro ⟨hne, hprefix⟩
    have hpos := List.length_pos_of_ne_nil hne
    have hle := hprefix.length_le
    refine ⟨site.length - 1, List.mem_range.2 (by omega), ?_⟩
    rw [Nat.sub_add_cancel hpos]
    exact (List.prefix_iff_eq_take.1 hprefix).symm

theorem pairwise_sites (stack : CallStack) : stack.sites.Pairwise (·.length < ·.length) := by
  unfold sites
  rw [List.pairwise_map]
  refine List.pairwise_lt_range.imp_of_mem fun {i j} _ hj hij => ?_
  have hlt := List.mem_range.1 hj
  rw [List.length_take, List.length_take]
  omega

/-- The sites of a site come no later than itself. -/
theorem mem_of_mem_sites {done rest : List CallStack} {outer : CallStack}
    (h : stack.sites = done ++ site :: rest) (houter : outer ∈ site.sites) : outer ∈ done ++ [site] := by
  obtain ⟨hne, hprefix⟩ := mem_sites.1 houter
  have hsite : site ∈ stack.sites := by simp [h]
  have hmem : outer ∈ stack.sites := mem_sites.2 ⟨hne, hprefix.trans (mem_sites.1 hsite).2⟩
  rw [h, List.append_cons] at hmem
  rcases List.mem_append.1 hmem with hmem | hmem
  · exact hmem
  · have hpairs := pairwise_sites stack
    rw [h] at hpairs
    have hlt := List.rel_of_pairwise_cons (List.pairwise_append.1 hpairs).2.1 hmem
    have hle := hprefix.length_le
    omega

end CallStack

namespace Bytecode

/-- The code without the recorded call stacks. -/
def unrecorded (b : Bytecode) : Bytecode := { b with callStacks := [] }

theorem setOffset_unrecorded (b : Bytecode) (address offset : Nat) :
    b.unrecorded.setOffset address offset = (b.setOffset address offset).map unrecorded := by
  have hsame : b.unrecorded.instructions = b.instructions := rfl
  unfold setOffset
  rw [hsame]
  cases b.instructions[address]?.bind (Instruction.withOffset? offset) <;> rfl

theorem callStacks_setOffset {b b' : Bytecode} {address offset : Nat}
    (h : b.setOffset address offset = .ok b') : b'.callStacks = b.callStacks ∧ b'.size = b.size := by
  unfold setOffset at h
  split at h
  · cases h
    exact ⟨rfl, List.length_set⟩
  · cases h

end Bytecode

theorem Instruction.Like.eq {i i' : Instruction} (h : i.Like (· = ·) i') : i = i' := by
  cases h with
  | execute h | array h => rw [List.forall₂_eq_eq_eq] at h; rw [h]
  | _ => simp_all

namespace Lowering

/-- The state without the recorded call stacks. -/
def State.unrecorded (s : State) : State := { s with code := s.code.unrecorded }

/-- Every instruction has a call stack, and the sites that code was emitted inside are initialized; so are
those around the expression being lowered when code is emitted. -/
structure State.Recorded (pass : Pass) (s : State) : Prop where
  size : s.code.callStacks.length = s.code.size
  sites : ∀ stack ∈ s.code.callStacks, ∀ site ∈ stack.sites, site ∈ s.initialized
  current : pass = .emit → ∀ site ∈ s.callStack.sites, site ∈ s.initialized

/-- The context with or without a record of call stacks. -/
def Context.recording (cx : Context) (record : Bool) : Context :=
  { cx with options := { cx.options with recordCallStacks := record } }

/-- The walks with and without a record end in states that differ only in the record. -/
def Context.recordCoupling (cx : Context) : Coupling (cx.recording true) (cx.recording false) where
  rel u s := s = u.unrecorded ∧ u.Recorded cx.pass
  good _ _ := True
  strict := True
  twin := (· = ·)
  addr := (· = ·)
  jump := (· = ·)
  known _ := True

namespace Context

variable {cx : Context} {α : Type} {message : String} {u s : State} {callSite stack : CallStack}

instance : cx.recordCoupling.Coherent := ⟨fun _ _ _ => trivial, fun _ _ _ => trivial⟩

/-- Updates that leave the record, the sites and the call stack alone. -/
theorem recorded_of_eq {pass : Pass} {u' : State} (h : u.Recorded pass)
    (hstacks : u'.code.callStacks = u.code.callStacks) (hsize : u'.code.size = u.code.size)
    (hsites : u'.initialized = u.initialized) (hcurrent : u'.callStack = u.callStack) :
    u'.Recorded pass where
  size := by rw [hstacks, hsize, h.size]
  sites := by rw [hstacks, hsites]; exact h.sites
  current := by rw [hsites, hcurrent]; exact h.current

theorem recordSteps_modify {g g' : State → State}
    (h : ∀ u, u.Recorded cx.pass → g' u.unrecorded = (g u).unrecorded ∧ (g u).Recorded cx.pass) :
    cx.recordCoupling.Steps (modify g) (modify g') fun _ _ => True := by
  rintro u _ ⟨rfl, hu⟩ -
  exact ⟨h u hu, trivial⟩

/-- Finding an operand does not look at the record. -/
theorem recordAttempts_of_framed {a : Attempt α} (h : Framed a) :
    cx.recordCoupling.Attempts a a (· = ·) := by
  rintro u _ ⟨rfl, hu⟩
  have hover := h u u.unrecorded
  rw [show u.over u.unrecorded = u.unrecorded from rfl] at hover
  rw [hover]
  cases hrun : a.run u with
  | error f => exact fun _ => rfl
  | ok r =>
    obtain ⟨r, u1⟩ := r
    have hu1 := h.eq_of_run hrun
    have hrel : cx.recordCoupling.rel u1 { u.unrecorded with storage := u1.storage } := by
      rw [hu1]
      exact ⟨rfl, recorded_of_eq hu rfl rfl rfl rfl⟩
    cases r with
    | ok x => exact fun _ => ⟨hrel, rfl⟩
    | error e => exact fun _ _ => ⟨hrel, rfl⟩

/-- An instruction is emitted under a call stack all of whose sites are initialized. -/
theorem recordMeets_emitUnder {i : Instruction} (hrel : cx.recordCoupling.rel u s)
    (hsites : ∀ site ∈ stack.sites, site ∈ u.initialized) :
    cx.recordCoupling.Meets (fun _ u' _ s' => cx.recordCoupling.rel u' s' ∧ u'.initialized = u.initialized)
      ((cx.recording true).emitUnder stack i u) ((cx.recording false).emitUnder stack i s) := by
  obtain ⟨rfl, hu⟩ := hrel
  cases hpass : cx.pass with
  | setup =>
    have hpass (record : Bool) : (cx.recording record).pass = .setup := hpass
    rw [emitUnder_setup (hpass _), emitUnder_setup (hpass _)]
    exact fun _ => rfl
  | emit =>
    have hpass (record : Bool) : (cx.recording record).pass = .emit := hpass
    rw [emitUnder_apply (hpass _), emitUnder_apply (hpass _)]
    show Coupling.Meets _ _ (blocksAfter u.openBlocks i >>= _) (blocksAfter u.openBlocks i >>= _)
    cases blocksAfter u.openBlocks i with
    | error f => exact fun _ => rfl
    | ok n =>
      have hrecord : (u.code.push i (some stack)).callStacks = u.code.callStacks ++ [stack] := rfl
      refine fun _ => ⟨⟨rfl, ?_, fun stack' hstack' => ?_, hu.current⟩, rfl⟩
      · show (u.code.push i (some stack)).callStacks.length = (u.code.push i (some stack)).instructions.length
        rw [hrecord, List.length_append, hu.size]
        simp [Bytecode.push, Bytecode.size]
      · rcases List.mem_append.1 (hrecord ▸ hstack') with hold | hnew
        · exact hu.sites stack' hold
        · rw [List.mem_singleton.1 hnew]
          exact hsites

theorem recordSteps_emit (i : Instruction) :
    cx.recordCoupling.Steps ((cx.recording true).emit i) ((cx.recording false).emit i) fun _ _ => True := by
  rintro u _ ⟨rfl, hu⟩
  cases hpass : cx.pass with
  | setup =>
    have hpass (record : Bool) : (cx.recording record).pass = .setup := hpass
    show Coupling.Meets _ _ ((cx.recording true).emitUnder u.callStack i u)
      ((cx.recording false).emitUnder u.callStack i u.unrecorded)
    rw [emitUnder_setup (hpass _), emitUnder_setup (hpass _)]
    exact fun _ => rfl
  | emit => 
    exact (recordMeets_emitUnder ⟨rfl, hu⟩ (hu.current hpass)).mono fun _ _ _ _ h => ⟨h.1, trivial⟩

theorem recordSteps_land (address : Nat) :
    cx.recordCoupling.Steps (land address) (land address) fun _ _ => True := by
  rintro u _ ⟨rfl, hu⟩
  unfold land
  rw [Step.get_bind_apply, Step.get_bind_apply, Step.lift_bind_apply, Step.lift_bind_apply]
  show Coupling.Meets _ _ (u.code.setOffset address (u.code.size - address) >>= _)
    (u.code.unrecorded.setOffset address (u.code.size - address) >>= _)
  rw [Bytecode.setOffset_unrecorded]
  cases hcode : u.code.setOffset address (u.code.size - address) with
  | error f => exact fun _ => rfl
  | ok code =>
    obtain ⟨hstacks, hsize⟩ := Bytecode.callStacks_setOffset hcode
    exact fun _ => ⟨⟨rfl, recorded_of_eq hu hstacks hsize rfl rfl⟩, trivial⟩

/-! ## Entering call sites -/

variable (cx) in
theorem recordWalks_prepareLocals (callSite : CallStack) :
    cx.recordCoupling.Walks True ((cx.recording true).prepareLocals callSite)
      ((cx.recording false).prepareLocals callSite) fun _ _ => True := by
  refine Coupling.walks_prepareLocals rfl trivial ?_ fun hv =>
    recordAttempts_of_framed (finds_localOperand hv).framed
  exact fun {_ _} => recordSteps_modify fun _ hu => ⟨rfl, recorded_of_eq hu rfl rfl rfl rfl⟩

/-- A site that is not noted as initialized has no code inside it. -/
theorem hasInstructionsWithin_eq_false {pass : Pass} {site : CallStack} (hu : u.Recorded pass)
    (hsite : site ≠ []) (h : site ∉ u.initialized) : u.code.hasInstructionsWithin site = false := by
  rw [Bytecode.hasInstructionsWithin, List.any_eq_false]
  intro stack hstack hprefix
  exact h (hu.sites stack hstack site (CallStack.mem_sites.2 ⟨hsite, List.isPrefixOf_iff_prefix.1 hprefix⟩))

theorem recordMeets_emitInitializer {function : String} {v : LocalVariable} (hrel : cx.recordCoupling.rel u s)
    (hsites : ∀ site ∈ callSite.sites, site ∈ u.initialized) :
    cx.recordCoupling.Meets (fun _ u' _ s' => cx.recordCoupling.rel u' s' ∧ u'.initialized = u.initialized)
      ((cx.recording true).emitInitializer callSite function v u)
      ((cx.recording false).emitInitializer callSite function v s) := by
  obtain ⟨rfl, hu⟩ := hrel
  unfold emitInitializer
  rw [Step.lift_bind_apply, Step.lift_bind_apply]
  show Coupling.Meets _ _ (localKey cx.tree.graph callSite v.name >>= _)
    (localKey cx.tree.graph callSite v.name >>= _)
  cases localKey cx.tree.graph callSite v.name with
  | error f => exact fun _ => rfl
  | ok key =>
    have hsame : u.unrecorded.storage = u.storage := rfl
    rw [Checked.ok_bind, Checked.ok_bind, Step.get_bind_apply, Step.get_bind_apply, hsame]
    cases u.storage.keyed.lookup (localDefaultKey function v.name) with
    | none => exact fun _ => ⟨⟨rfl, hu⟩, rfl⟩
    | some source => cases u.storage.keyed.lookup key with
      | none => exact fun _ => ⟨⟨rfl, hu⟩, rfl⟩
      | some target => exact recordMeets_emitUnder ⟨rfl, hu⟩ hsites

/-- The initializers of a site are emitted when all sites around it are noted. -/
theorem recordMeets_emitInitializers (hrel : cx.recordCoupling.rel u s)
    (hsites : ∀ site ∈ callSite.sites, site ∈ u.initialized) :
    cx.recordCoupling.Meets (fun _ u' _ s' => cx.recordCoupling.rel u' s' ∧ u'.initialized = u.initialized)
      ((cx.recording true).emitInitializers callSite u) ((cx.recording false).emitInitializers callSite s) := by
  refine Coupling.meets_emitInitializers (I := fun u' s' => cx.recordCoupling.rel u' s' ∧
    u'.initialized = u.initialized) rfl ⟨hrel, rfl⟩ ?_
  rintro function v u1 s1 - ⟨hrel1, hsame⟩
  rw [← hsame]
  exact recordMeets_emitInitializer hrel1 (hsame ▸ hsites)

/-- Entering a site in either pass. When code is emitted, the sites around it come first. -/
theorem recordMeets_initializeSite (hrel : cx.recordCoupling.rel u s) (hne : callSite ≠ [])
    (hsites : cx.pass = .emit → ∀ site ∈ callSite.sites, site = callSite ∨ site ∈ u.initialized) :
    cx.recordCoupling.Meets (fun _ u' _ s' => cx.recordCoupling.rel u' s' ∧
        u.initialized ⊆ u'.initialized ∧ (cx.pass = .emit → callSite ∈ u'.initialized))
      ((cx.recording true).initializeSite callSite u) ((cx.recording false).initializeSite callSite s) := by
  obtain ⟨rfl, hu⟩ := hrel
  unfold initializeSite
  rw [Step.get_bind_apply, Step.get_bind_apply]
  cases hpass : cx.pass with
  | setup =>
    have hpass (record : Bool) : (cx.recording record).pass = .setup := hpass
    rw [hpass, hpass]
    show Coupling.Meets _ _ ((if callSite ∈ u.prepared then _ else _ : Step Unit) u)
      ((if callSite ∈ u.prepared then _ else _ : Step Unit) u.unrecorded)
    split
    · exact fun _ => ⟨⟨rfl, hu⟩, List.Subset.refl _, by simp⟩
    · have hmark : cx.recordCoupling.rel { u with prepared := callSite :: u.prepared }
          { u.unrecorded with prepared := callSite :: u.prepared } :=
        ⟨rfl, recorded_of_eq hu rfl rfl rfl rfl⟩
      have hwalks := recordWalks_prepareLocals cx callSite
      refine (((hwalks.steps trivial hmark).extends hwalks.left hwalks.right).mono ?_)
      rintro _ u' _ s' ⟨hrel', hu', -⟩
      exact ⟨hrel'.1, hu'.initialized, by simp⟩
  | emit =>
    have hsites := hsites hpass
    have hpass (record : Bool) : (cx.recording record).pass = .emit := hpass
    rw [hpass, hpass]
    show Coupling.Meets _ _ ((if callSite ∈ u.initialized then _ else _ : Step Unit) u)
      ((if callSite ∈ u.initialized then _ else _ : Step Unit) u.unrecorded)
    by_cases hmem : callSite ∈ u.initialized
    · rw [if_pos hmem, if_pos hmem]
      exact fun _ => ⟨⟨rfl, hu⟩, List.Subset.refl _, fun _ => hmem⟩
    · rw [if_neg hmem, if_neg hmem, hasInstructionsWithin_eq_false hu hne hmem]
      have hmark : cx.recordCoupling.rel { u with initialized := callSite :: u.initialized }
          { u.unrecorded with initialized := callSite :: u.initialized } :=
        ⟨rfl, hu.size, fun stack h site h' => List.mem_cons_of_mem _ (hu.sites stack h site h'),
          fun h site h' => List.mem_cons_of_mem _ (hu.current h site h')⟩
      have hnoted : ∀ site ∈ callSite.sites, site ∈ callSite :: u.initialized := fun site h =>
        List.mem_cons.2 (hsites site h)
      refine (recordMeets_emitInitializers hmark hnoted).bind ?_ (fun _ => keeps_recordInitializers) fun _ =>
        keeps_recordInitializers
      rintro _ u1 _ _ ⟨⟨rfl, hu1⟩, hsame⟩ -
      refine ⟨⟨rfl, recorded_of_eq hu1 rfl rfl rfl rfl⟩, ?_, fun _ => ?_⟩
      · show u.initialized ⊆ u1.initialized
        rw [hsame]
        exact List.subset_cons_self _ _
      · show callSite ∈ u1.initialized
        rw [hsame]
        exact List.mem_cons_self

theorem keeps_initializeSite : cx.Keeps (cx.initializeSite callSite) := fun _ =>
  grows_initializeSite.mono fun _ _ h => h.1

/-- After its sites were entered one by one, a call stack is current. -/
theorem recordMeets_initializeLocals (hrel : cx.recordCoupling.rel u s) :
    cx.recordCoupling.Meets (fun _ u' _ s' => cx.recordCoupling.rel u' s' ∧
        (cx.pass = .emit → ∀ site ∈ stack.sites, site ∈ u'.initialized))
      ((cx.recording true).initializeLocals stack u) ((cx.recording false).initializeLocals stack s) := by
  refine Coupling.Meets.forM (fun done u' s' => cx.recordCoupling.rel u' s' ∧
    (cx.pass = .emit → ∀ site ∈ done, site ∈ u'.initialized)) ⟨hrel, by simp⟩ ?_
    (fun _ => keeps_initializeSite) fun _ => keeps_initializeSite
  rintro done site rest hstack u1 s1 ⟨hrel1, hdone⟩
  have hsite : site ∈ stack.sites := by simp [hstack]
  refine (recordMeets_initializeSite hrel1 (CallStack.mem_sites.1 hsite).1 fun hpass outer houter => ?_).mono ?_
  · rcases List.mem_append.1 (CallStack.mem_of_mem_sites hstack houter) with h | h
    · exact .inr (hdone hpass outer h)
    · exact .inl (List.mem_singleton.1 h)
  · rintro _ u2 _ s2 ⟨hrel2, hsub, hnew⟩
    refine ⟨hrel2, fun hpass site' h => ?_⟩
    rcases List.mem_append.1 h with h | h
    · exact hsub (hdone hpass site' h)
    · rw [List.mem_singleton.1 h]
      exact hnew hpass

theorem recordMeets_enter (hrel : cx.recordCoupling.rel u s) :
    cx.recordCoupling.Meets (fun _ u _ s => cx.recordCoupling.rel u s) ((cx.recording true).enter stack u)
      ((cx.recording false).enter stack s) := by
  refine Coupling.meets_enter hrel rfl ?_ ?_ recordMeets_initializeLocals ?_
  · rintro u _ ⟨rfl, -⟩
    rfl
  · rintro u _ ⟨rfl, hu⟩ frames
    exact ⟨rfl, recorded_of_eq hu rfl rfl rfl rfl⟩
  · rintro u _ ⟨⟨rfl, hu⟩, hsites⟩
    exact ⟨rfl, hu.size, hu.sites, hsites⟩

/-! ## The coupling -/

instance : cx.recordCoupling.Lawful where
  tree := rfl
  env := rfl
  pass := rfl
  failed_of_good h := absurd trivial h
  known_child _ _ _ _ := trivial
  callStack := by rintro u _ ⟨rfl, -⟩; rfl
  failed := by rintro u _ ⟨rfl, -⟩ e; rfl
  visited := by rintro u _ ⟨rfl, -⟩ e; rfl
  visit := by rintro u _ e - ⟨rfl, hu⟩; exact ⟨rfl, recorded_of_eq hu rfl rfl rfl rfl⟩
  addr_size := by rintro u _ ⟨rfl, -⟩; rfl
  span := by rintro u _ ⟨rfl, hu⟩ e start _ rfl; exact ⟨rfl, recorded_of_eq hu rfl rfl rfl rfl⟩
  enter _ _ hrel := recordMeets_enter hrel
  leave := by
    rintro u u' _ _ ⟨rfl, hu⟩ hext - ⟨rfl, hu'⟩
    exact ⟨rfl, hu'.size, hu'.sites, fun hpass site h => hext.initialized (hu.current hpass site h)⟩
  fail e error _ := by
    rintro u _ ⟨rfl, hu⟩
    unfold fail
    split
    · exact fun _ => ⟨⟨rfl, recorded_of_eq hu rfl rfl rfl rfl⟩, trivial⟩
    · exact fun _ => ⟨⟨rfl, recorded_of_eq hu rfl rfl rfl rfl⟩, trivial⟩
  warning subject message := recordSteps_modify fun u hu => ⟨rfl, recorded_of_eq hu rfl rfl rfl rfl⟩
  emit h := h.eq ▸ recordSteps_emit _
  copyValue := by
    rintro o _ q _ rfl rfl u s hrel
    unfold copyValue
    split
    · exact fun _ => ⟨hrel, trivial⟩
    · exact recordSteps_emit _ hrel
  reserve h _ := by
    refine Coupling.steps_reserve ?_ (h.eq ▸ recordSteps_emit _)
    rintro u _ ⟨rfl, -⟩
    rfl
  land h := h ▸ recordSteps_land _
  jumpBack := by
    rintro a _ rfl u _ ⟨rfl, hu⟩
    exact recordSteps_emit (.jumpBackward (u.code.size - a)) ⟨rfl, hu⟩
  addEntry := by rintro u _ ⟨rfl, hu⟩ name; exact ⟨rfl, recorded_of_eq hu rfl rfl rfl rfl⟩
  constant p := recordAttempts_of_framed finds_constantOperand.framed
  external p := recordAttempts_of_framed finds_externalOperand.framed
  value _ := recordAttempts_of_framed finds_valueOperand.framed
  caseLabel n := recordAttempts_of_framed (finds_caseLabel n).framed
  scratch := recordAttempts_of_framed finds_comparisonScratch.framed
  publish p := by
    rintro o _ rfl
    exact Coupling.steps_publish rfl fun _ => recordSteps_modify fun _ hu => ⟨rfl, recorded_of_eq hu rfl rfl rfl rfl⟩
  lookup := by
    rintro u _ ⟨rfl, -⟩ e
    show Option.Rel _ (u.operands.lookup e) (u.operands.lookup e)
    cases u.operands.lookup e with
    | none => exact .none
    | some o => exact .some rfl
  remember := by
    rintro u _ o _ ⟨rfl, hu⟩ rfl e
    exact ⟨rfl, recorded_of_eq hu rfl rfl rfl rfl⟩
  good_of_remember _ := trivial
  watch e := by
    rintro o _ rfl
    refine Coupling.attempts_watch rfl rfl (fun p => recordAttempts_of_framed finds_watchOperand.framed) ?_
    rintro mirror _ rfl
    exact recordSteps_modify fun _ hu => ⟨rfl, recorded_of_eq hu rfl rfl rfl rfl⟩

end Context

end Lowering
end NodeGraph
