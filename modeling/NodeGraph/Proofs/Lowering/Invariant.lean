import NodeGraph.Proofs.Bytecode.Layout
import NodeGraph.Proofs.Lowering.CoupledWalk
import NodeGraph.Proofs.Lowering.Sound

/-!
# Invariants of the walk

A walk that is coupled with itself is one walk, and what relates both sides is an invariant of it. So an
invariant has to be checked only where the walk changes what the invariant looks at (`Invariant.Kept`), and
it holds when the walk has come to its end (`Kept.holds_of_lowerRoots`). Only walks without a failure
matter, and what they find in the storage is found there at the end.
-/
namespace NodeGraph.Lowering

/-- Nothing changed that an invariant looks at, other than that the storage grew. -/
structure State.Still (s s' : State) : Prop where
  code : s'.code = s.code
  visited : s'.visited = s.visited
  initialized : s'.initialized = s.initialized
  initializers : s'.initializers = s.initializers
  callStack : s'.callStack = s.callStack
  operands : s'.operands = s.operands
  storage : s.storage.Extends s'.storage

theorem State.Still.refl (s : State) : s.Still s := ⟨rfl, rfl, rfl, rfl, rfl, rfl, .refl _⟩

theorem State.Still.trans {s s' s'' : State} (h : s.Still s') (h' : s'.Still s'') : s.Still s'' where
  code := h'.code.trans h.code
  visited := h'.visited.trans h.visited
  initialized := h'.initialized.trans h.initialized
  initializers := h'.initializers.trans h.initializers
  callStack := h'.callStack.trans h.callStack
  operands := h'.operands.trans h.operands
  storage := h.storage.trans h'.storage

/-- A property of the states of a walk that ends with a storage, of the operands it finds and of the
expressions it comes to. -/
structure Invariant where
  holds : State → Prop
  sound : Operand → Prop
  known : ExprId → Prop
  final : Storage

namespace Invariant

/-- The walk keeps the invariant, wherever it changes what the invariant looks at. -/
structure Kept (I : Invariant) (cx : Context) : Prop where
  known_child {e x c} : I.known e → cx.tree.expr? e = some x → x.kind ≠ .exit → c ∈ x.children → I.known c
  still {u u'} : u.Still u' → I.holds u → I.holds u'
  visit {u e} : I.known e → I.holds u → I.holds { u with visited := e :: u.visited }
  enter {u e x} : I.known e → cx.tree.expr? e = some x → I.holds u →
    Step.Ends (fun _ => True) u (cx.enter ((x.proxy.map Proxy.callStack).getD u.callStack)) fun _ u' => I.holds u'
  leave {u u'} : I.holds u → cx.Extends u u' → I.holds u' → I.holds { u' with callStack := u.callStack }
  emit {u i} : cx.pass = .emit → I.holds u → (∀ o ∈ i.operands, I.sound o) → (∀ d, i.forward? = some d → d = 0) →
    I.holds { u with code := u.code.push i (if cx.options.recordCallStacks then some u.callStack else none) }
  land {u a code} : I.holds u → u.code.setOffset a (u.code.size - a) = .ok code → I.holds { u with code := code }
  addEntry {u} (name) : I.holds u → I.holds { u with code := u.code.addEntry name u.code.size }
  lookup {u e o} : I.holds u → u.operands.lookup e = some o → I.sound o
  remember {u e o} : I.holds u → I.sound o → I.holds (u.remember e o)
  constant {p site o} : cx.constantSite p = .ok (some site) → site.Holds I.final o → I.sound o
  external {p site o} : cx.externalSite p = .ok (some site) → site.Holds I.final o → I.sound o
  value {p o} : cx.Located I.final p o → I.sound o
  label {n : Nat} {o} : I.final.keyed.lookup s!"Const::int32::{n}" = some o → I.sound o
  scratch {o} : I.final.keyed.lookup "Scratch::Compare" = some o → I.sound o

variable (I : Invariant) (cx : Context)

/-- The walk coupled with itself. -/
def coupling : Coupling cx cx where
  rel u s := u = s ∧ I.holds u
  good u s := u.storage.Extends I.final ∧ u.failed = [] ∧ s.failed = []
  strict := False
  twin o o' := o = o' ∧ I.sound o
  addr := (· = ·)
  jump := (· = ·)
  known := I.known

instance : (I.coupling cx).Coherent where
  good_of_strict h := h.elim
  good_of_extends hu hs hgood := ⟨hu.storage.trans hgood.1, List.subset_nil.1 (hgood.2.1 ▸ hu.failed),
    List.subset_nil.1 (hgood.2.2 ▸ hs.failed)⟩

variable {I cx}

/-- A step that ends in a state with the invariant. -/
theorem steps_of_holds {α : Type} {m : Step α} {Q : α → α → Prop}
    (h : ∀ {u u' a}, I.holds u → m u = .ok (a, u') → u'.storage.Extends I.final → I.holds u' ∧ Q a a) :
    (I.coupling cx).Steps m m Q := by
  rintro u _ ⟨rfl, hu⟩
  refine Coupling.meets_of_not_strict id fun a u1 b u2 ha hb hgood => ?_
  cases ha.symm.trans hb
  obtain ⟨hu1, hq⟩ := h hu ha hgood.1
  exact ⟨⟨rfl, hu1⟩, hq⟩

/-- Both instructions are one, with sound operands and no distance to go forward. -/
theorem eq_of_like {i i' : Instruction} (h : i.Like (fun o o' => o = o' ∧ I.sound o) i') :
    i' = i ∧ (∀ o ∈ i.operands, I.sound o) ∧ ∀ d, i.forward? = some d → d = 0 := by
  have hall {l l' : List Operand} (h : List.Forall₂ (fun o o' => o = o' ∧ I.sound o) l l') :
      l' = l ∧ ∀ o ∈ l, I.sound o := by
    induction h with
    | nil => exact ⟨rfl, by simp⟩
    | cons ho _ ih =>
      obtain ⟨rfl, hsound⟩ := ho
      obtain ⟨rfl, hrest⟩ := ih
      exact ⟨rfl, by simpa using ⟨hsound, hrest⟩⟩
  cases h with
  | execute h | array h =>
    obtain ⟨rfl, hsound⟩ := hall h
    exact ⟨rfl, hsound, by simp [Instruction.forward?]⟩
  | zero h | increment h =>
    obtain ⟨rfl, hsound⟩ := h
    exact ⟨rfl, by simpa using hsound, by simp [Instruction.forward?]⟩
  | equals hl hr ho =>
    obtain ⟨rfl, hl⟩ := hl
    obtain ⟨rfl, hr⟩ := hr
    obtain ⟨rfl, ho⟩ := ho
    exact ⟨rfl, by simpa using ⟨hl, hr, ho⟩, by simp [Instruction.forward?]⟩
  | jumpForward => exact ⟨rfl, by simp, by simp [Instruction.forward?]⟩
  | jumpIf h =>
    obtain ⟨rfl, hsound⟩ := h
    exact ⟨rfl, by simpa using hsound, by simp [Instruction.forward?]⟩
  | beginBlock hc hi =>
    obtain ⟨rfl, hc⟩ := hc
    obtain ⟨rfl, hi⟩ := hi
    exact ⟨rfl, by simpa using ⟨hc, hi⟩, by simp [Instruction.forward?]⟩
  | endBlock | exit => exact ⟨rfl, by simp, by simp [Instruction.forward?]⟩

namespace Kept

variable (h : I.Kept cx) {u u' : State} {i : Instruction}

include h

theorem holds_emit (hu : I.holds u) (hsound : ∀ o ∈ i.operands, I.sound o)
    (hforward : ∀ d, i.forward? = some d → d = 0) {r : Unit} (hrun : cx.emit i u = .ok (r, u')) : I.holds u' := by
  have hrun : cx.emitUnder u.callStack i u = .ok (r, u') := hrun
  cases hpass : cx.pass with
  | setup =>
    rw [Context.emitUnder_setup hpass] at hrun
    cases hrun
  | emit =>
    rw [Context.emitUnder_apply hpass] at hrun
    obtain ⟨openBlocks, -, hrun⟩ := Checked.bind_eq_ok.1 hrun
    cases hrun
    refine h.still ?_ (h.emit hpass hu hsound hforward)
    exact ⟨rfl, rfl, rfl, rfl, rfl, rfl, .refl _⟩

theorem steps_emit (hsound : ∀ o ∈ i.operands, I.sound o) (hforward : ∀ d, i.forward? = some d → d = 0) :
    (I.coupling cx).Steps (cx.emit i) (cx.emit i) fun _ _ => True :=
  steps_of_holds fun hu hrun _ => ⟨h.holds_emit hu hsound hforward hrun, trivial⟩

/-- Finding an operand leaves the invariant, and what is found is found at the end. -/
theorem attempts_of_finds {α : Type} {a : Attempt α} {P : Storage → α → Prop} {Q : α → α → Prop} (ha : cx.Finds a P)
    (hQ : ∀ {s x}, s.Extends I.final → P s x → Q x x) : (I.coupling cx).Attempts a a Q := by
  rintro u _ ⟨rfl, hu⟩
  refine Coupling.meets_of_not_strict id fun r u1 r' u2 hrun hrun' hgood => ?_
  cases hrun.symm.trans hrun'
  have hfound := Checked.Ends.of_ok (ha.found u) hrun
  have hu1 := ha.framed.eq_of_run hrun
  cases r with
  | error e => exact Coupling.agrees_of_not_strict id (.inl ⟨e, rfl⟩) _ _
  | ok x =>
    have hstill : u.Still u1 := by
      rw [hu1]
      exact ⟨rfl, rfl, rfl, rfl, rfl, rfl, hfound.1.keeps⟩
    exact ⟨⟨rfl, h.still hstill hu⟩, hQ hgood.1 hfound.2⟩

theorem steps_modify {g : State → State} (hg : ∀ u : State, u.Still (g u)) :
    (I.coupling cx).Steps (modify g) (modify g) fun _ _ => True :=
  steps_of_holds fun {u _ _} hu hrun _ => by
    cases hrun
    exact ⟨h.still (hg u) hu, trivial⟩

theorem lawful : (I.coupling cx).Lawful where
  tree := rfl
  env := rfl
  pass := rfl
  failed_of_good _ hgood := hgood.2
  known_child := h.known_child
  callStack := by rintro u _ ⟨rfl, -⟩; rfl
  failed := by rintro u _ ⟨rfl, -⟩ e; rfl
  visited := by rintro u _ ⟨rfl, -⟩ e; rfl
  visit := by rintro u _ e hknown ⟨rfl, hu⟩; exact ⟨rfl, h.visit hknown hu⟩
  addr_size := by rintro u _ ⟨rfl, -⟩; rfl
  span := by
    rintro u _ ⟨rfl, hu⟩ e start _ rfl
    exact ⟨rfl, h.still { State.Still.refl u with } hu⟩
  enter := by
    rintro e x u _ hknown hx ⟨rfl, hu⟩
    refine Coupling.meets_of_not_strict id fun _ u1 _ u2 hrun hrun' _ => ?_
    cases hrun.symm.trans hrun'
    have hu1 := Checked.Ends.of_ok (h.enter hknown hx hu) hrun
    exact ⟨rfl, hu1⟩
  leave := by
    rintro u u' _ _ ⟨rfl, hu⟩ hext - ⟨rfl, hu'⟩
    exact ⟨rfl, h.leave hu hext hu'⟩
  fail _ _ hstrict := hstrict.elim
  warning _ _ := h.steps_modify fun u => { State.Still.refl u with }
  emit hlike := by
    obtain ⟨rfl, hsound, hforward⟩ := eq_of_like hlike
    exact h.steps_emit hsound hforward
  copyValue := by
    rintro o _ q _ ⟨rfl, ho⟩ ⟨rfl, hq⟩ u s hrel
    unfold Context.copyValue
    split
    · exact fun _ => ⟨hrel, trivial⟩
    · exact h.steps_emit (by simpa using ⟨ho, hq⟩) (by simp [Instruction.forward?]) hrel
  reserve hlike _ := by
    obtain ⟨rfl, hsound, hforward⟩ := eq_of_like hlike
    exact Coupling.steps_reserve (fun hrel => by rw [hrel.1]) (h.steps_emit hsound hforward)
  land := by
    rintro a _ rfl
    refine steps_of_holds fun {u u' r} hu hrun _ => ⟨?_, trivial⟩
    unfold Lowering.land at hrun
    rw [Step.get_bind_apply, Step.lift_bind_apply] at hrun
    obtain ⟨code, hcode, hrun⟩ := Checked.bind_eq_ok.1 hrun
    cases hrun
    exact h.land hu hcode
  jumpBack := by
    rintro a _ rfl
    refine steps_of_holds fun {u u' r} hu hrun _ => ⟨?_, trivial⟩
    have hrun : cx.emit (.jumpBackward (u.code.size - a)) u = .ok (r, u') := hrun
    exact h.holds_emit hu (by simp) (by simp [Instruction.forward?]) hrun
  addEntry := by rintro u _ ⟨rfl, hu⟩ name; exact ⟨rfl, h.addEntry name hu⟩
  constant p := h.attempts_of_finds Context.finds_constantOperand fun hle ⟨_, hsite, ho⟩ =>
    ⟨rfl, h.constant hsite (ho.mono hle)⟩
  external p := h.attempts_of_finds Context.finds_externalOperand fun hle ⟨_, hsite, ho⟩ =>
    ⟨rfl, h.external hsite (ho.mono hle)⟩
  value _ := h.attempts_of_finds Context.finds_valueOperand fun hle ho => ⟨rfl, h.value (ho.mono hle)⟩
  caseLabel n := h.attempts_of_finds (Context.finds_caseLabel n) fun hle ho => ⟨rfl, h.label (hle.keyed ho)⟩
  scratch := h.attempts_of_finds Context.finds_comparisonScratch fun hle ho => ⟨rfl, h.scratch (hle.keyed ho)⟩
  publish p := by
    rintro o _ ⟨rfl, -⟩
    exact Coupling.steps_publish rfl fun _ => h.steps_modify fun u => { State.Still.refl u with }
  lookup := by
    rintro u _ ⟨rfl, hu⟩ e
    cases hlookup : u.operands.lookup e with
    | none => exact .none
    | some o => exact .some ⟨rfl, h.lookup hu hlookup⟩
  remember := by
    rintro u _ o _ ⟨rfl, hu⟩ ⟨rfl, ho⟩ e
    exact ⟨rfl, h.remember hu ho⟩
  good_of_remember hgood := hgood
  watch e := by
    rintro o _ ⟨rfl, -⟩
    refine Coupling.attempts_watch rfl rfl
      (fun p => h.attempts_of_finds Context.finds_watchOperand fun _ _ => (rfl : _ = _)) ?_
    rintro mirror _ rfl
    exact h.steps_modify fun u => { State.Still.refl u with }

/-- A pass that ends without a failure keeps the invariant. -/
theorem holds_of_lowerRoots (hroots : ∀ e ∈ cx.tree.roots, I.known e) (hu : I.holds u.restarted)
    (hrun : cx.lowerRoots u = .ok ((), u')) (hfinal : u'.storage.Extends I.final) (hfailed : u'.failed = []) :
    I.holds u' := by
  have := h.lawful
  have hmeets := (Coupling.walks_roots (C := I.coupling cx) hroots).steps trivial ⟨rfl, hu⟩
  have hrun : cx.tree.roots.forM cx.lower u.restarted = .ok ((), u') := hrun
  rw [hrun] at hmeets
  exact (hmeets ⟨hfinal, hfailed, hfailed⟩).1.2

end Kept
end Invariant
end NodeGraph.Lowering
