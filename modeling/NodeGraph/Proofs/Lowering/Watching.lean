import NodeGraph.Proofs.Lowering.CallStacks
import NodeGraph.Proofs.Lowering.Keys

/-!
# Lowering with other watches

Watches have registers in a memory space of their own, under keys that nothing else has if names contain no
separators. So a walk that looks for anything but watches does the same in two states that agree on everything
else (`Alike`), and what it finds is not in that space (`Unmirrored`). Two walks that watch different pins stay
in such states, as long as no expression fails (`watchCoupling`).
-/
namespace NodeGraph

variable {twin : Operand → Operand → Prop} {i i' : Instruction}

theorem Instruction.Like.operands {P : Operand → Prop} (h : i.Like twin i') (hP : ∀ {o o'}, twin o o' → P o) :
    ∀ o ∈ i.operands, P o := by
  have hall {l l' : List Operand} (h : List.Forall₂ twin l l') : ∀ o ∈ l, P o := by
    induction h with
    | nil => simp
    | cons ho _ ih => exact List.forall_mem_cons.2 ⟨hP ho, ih⟩
  cases h with
  | execute h => exact hall h
  | array h => exact hall h
  | zero h => simpa [Instruction.operands] using hP h
  | increment h => simpa [Instruction.operands] using hP h
  | equals hl hr ho => simpa [Instruction.operands] using ⟨hP hl, hP hr, hP ho⟩
  | jumpIf h => simpa [Instruction.operands] using hP h
  | beginBlock hc hi => simpa [Instruction.operands] using ⟨hP hc, hP hi⟩
  | _ => simp [Instruction.operands]

theorem Instruction.Like.mono {twin' : Operand → Operand → Prop} (h : i.Like twin i')
    (htwin : ∀ o o', twin o o' → twin' o o') : i.Like twin' i' := by
  cases h with
  | execute h => exact .execute (h.imp htwin)
  | array h => exact .array (h.imp htwin)
  | zero h => exact .zero (htwin _ _ h)
  | increment h => exact .increment (htwin _ _ h)
  | equals hl hr ho => exact .equals (htwin _ _ hl) (htwin _ _ hr) (htwin _ _ ho)
  | jumpForward => exact .jumpForward
  | jumpIf h => exact .jumpIf (htwin _ _ h)
  | beginBlock hc hi => exact .beginBlock (htwin _ _ hc) (htwin _ _ hi)
  | endBlock => exact .endBlock
  | exit => exact .exit

theorem Instruction.operands_shape (i : Instruction) : i.shape.operands = i.operands := by
  cases i <;> rfl

namespace Lowering

/-! ## States that differ in their watches -/

variable {base : Operand} {build : Typed Register}

/-- The key of the watch of a pin. -/
def WatchKey (g : Graph) (key : String) : Prop :=
  ∃ (p : Proxy) (path : String), p.pin?.isSome = true ∧ p.path g = .ok path ∧ key = path ++ "::Debug"

/-- Without separators in names, nothing else is made under the key of a watch. -/
theorem Makes.not_watchKey {types : TypeRegistry} {t : Tree} {sharing : Sharing} {space : MemorySpace}
    {key : String} (h : Makes types t sharing space key build) (hg : t.graph.BareNames)
    (hsharing : sharing.ExistsIn t.graph) (hspace : space ≠ .debug) : ¬ WatchKey t.graph key := by
  rintro ⟨p, path, hp, hpath, rfl⟩
  exact hspace (h.space_eq hg hsharing hp hpath (by simp [suffixes]))

namespace Storage

variable {g : Graph} {a b c a' : Storage} {space : MemorySpace} {r : Register} {o : Operand} {segments : String}

/-- Storages that differ in their watches only. -/
structure Alike (g : Graph) (a b : Storage) : Prop where
  literals : a.literals = b.literals
  work : a.work = b.work
  keyed : ∀ {key}, ¬ WatchKey g key → a.keyed.lookup key = b.keyed.lookup key

/-- Nothing but watches is in the memory of watches. -/
def Unmirrored (g : Graph) (a : Storage) : Prop :=
  ∀ {key o}, ¬ WatchKey g key → a.keyed.lookup key = some o → o.memory ≠ .debug

theorem Alike.refl (a : Storage) : a.Alike g a := ⟨rfl, rfl, fun _ => rfl⟩

section

variable (h : a.Alike g b)

include h

theorem Alike.symm : b.Alike g a :=
  ⟨h.literals.symm, h.work.symm, fun hkey => (h.keyed hkey).symm⟩

theorem Alike.trans (h' : b.Alike g c) : a.Alike g c :=
  ⟨h.literals.trans h'.literals, h.work.trans h'.work, fun hkey => (h.keyed hkey).trans (h'.keyed hkey)⟩

theorem Alike.unmirrored (hu : a.Unmirrored g) : b.Unmirrored g := fun hkey ho =>
  hu hkey ((h.keyed hkey).trans ho)

theorem Alike.table?_eq (hspace : space ≠ .debug) : a.table? space = b.table? space := by
  cases space with
  | literal => exact congrArg some h.literals
  | work => exact congrArg some h.work
  | debug => exact absurd rfl hspace
  | external => rfl

theorem Alike.setTable (hspace : space ≠ .debug) (table : MemoryTable) :
    (a.setTable space table).Alike g (b.setTable space table) := by
  cases space with
  | literal => exact { h with literals := rfl }
  | work => exact { h with work := rfl }
  | debug => exact absurd rfl hspace
  | external => exact h

/-- A register that is no watch is added in the same way. -/
theorem Alike.addRegister (hspace : space ≠ .debug) (hadd : a.addRegister space r = some (a', o))
    (hu : a.Unmirrored g) :
    (∃ b', b.addRegister space r = some (b', o) ∧ a'.Alike g b') ∧ a'.Unmirrored g ∧ o.memory ≠ .debug := by
  obtain ⟨table, htable, rfl, rfl⟩ := addRegister_eq_some.1 hadd
  have hset := h.setTable hspace (table.addRegister r).1
  refine ⟨⟨_, addRegister_eq_some.2 ⟨table, (h.table?_eq hspace).symm.trans htable, rfl, rfl⟩, hset.literals, hset.work,
    fun {key} hkey => ?_⟩, fun {key o} hkey ho => ?_, hspace⟩
  · show List.lookup key (_ :: a.keyed) = List.lookup key (_ :: b.keyed)
    rw [List.lookup_cons, List.lookup_cons, h.keyed hkey]
  · have ho : List.lookup key (_ :: a.keyed) = some o := ho
    rw [List.lookup_cons] at ho
    split at ho
    · cases ho
      exact hspace
    · exact hu hkey ho

theorem Alike.addRegister_none (hspace : space ≠ .debug) (hadd : a.addRegister space r = none) :
    b.addRegister space r = none := by
  unfold Storage.addRegister at hadd ⊢
  rw [← h.table?_eq hspace]
  cases htable : a.table? space with
  | none => rfl
  | some table =>
    rw [htable] at hadd
    cases hadd

end

/-- A watch is all that is different when one is added. -/
theorem alike_addRegister (hkey : WatchKey g r.name) (hadd : a.addRegister .debug r = some (a', o)) :
    a.Alike g a' := by
  obtain ⟨rfl, rfl⟩ := Prod.mk.inj (Option.some.inj hadd)
  refine ⟨rfl, rfl, fun {key} hother => ?_⟩
  have hne : key ≠ r.name := fun heq => hother (heq ▸ hkey)
  show _ = List.lookup key ((r.name, _) :: a.keyed)
  rw [List.lookup_cons, beq_eq_false_iff_ne.2 hne]

/-- So is a member of a register. -/
theorem Alike.addPath (h : a.Alike g b) (hbase : base.memory ≠ .debug)
    (hadd : a.addPath base segments = some (a', o)) (hu : a.Unmirrored g) :
    (∃ b', b.addPath base segments = some (b', o) ∧ a'.Alike g b') ∧ a'.Unmirrored g ∧ o.memory ≠ .debug := by
  obtain ⟨table, htable, rfl, rfl⟩ := addPath_eq_some.1 hadd
  refine ⟨⟨_, addPath_eq_some.2 ⟨table, (h.table?_eq hbase).symm.trans htable, rfl, rfl⟩, h.setTable hbase _⟩,
    fun {key o} hkey ho => ?_, hbase⟩
  rw [keyed_setTable] at ho
  exact hu hkey ho

theorem Alike.addPath_none (h : a.Alike g b) (hbase : base.memory ≠ .debug)
    (hadd : a.addPath base segments = none) : b.addPath base segments = none := by
  unfold Storage.addPath at hadd ⊢
  rw [← h.table?_eq hbase]
  cases htable : a.table? base.memory with
  | none => rfl
  | some table =>
    rw [htable] at hadd
    cases hadd

end Storage

namespace State

variable {g : Graph} {u s v : State}

/-- States that differ in their watches, and in what was reported. -/
def Alike (g : Graph) (u s : State) : Prop :=
  ∃ storage report mirrors, s = { u with storage := storage, report := report, mirrors := mirrors } ∧
    u.storage.Alike g storage

/-- Neither operands nor instructions are in the memory of watches. -/
structure Unmirrored (g : Graph) (u : State) : Prop where
  storage : u.storage.Unmirrored g
  operands : ∀ entry ∈ u.operands, entry.2.memory ≠ .debug
  code : ∀ i ∈ u.code.instructions, ∀ o ∈ i.operands, o.memory ≠ .debug

theorem Alike.refl (u : State) : u.Alike g u := ⟨u.storage, u.report, u.mirrors, rfl, .refl _⟩

theorem Alike.unmirrored (h : u.Alike g s) (hu : u.Unmirrored g) : s.Unmirrored g := by
  obtain ⟨storage, report, mirrors, rfl, h⟩ := h
  exact { hu with storage := h.unmirrored hu.storage }

theorem Alike.symm (h : u.Alike g s) : s.Alike g u := by
  obtain ⟨storage, report, mirrors, rfl, h⟩ := h
  exact ⟨u.storage, u.report, u.mirrors, rfl, h.symm⟩

theorem Alike.trans (h : u.Alike g s) (h' : s.Alike g v) : u.Alike g v := by
  obtain ⟨storage, report, mirrors, rfl, h⟩ := h
  obtain ⟨storage', report', mirrors', rfl, h'⟩ := h'
  exact ⟨storage', report', mirrors', rfl, h.trans h'⟩

end State

/-! ## Looking for other things than watches -/

section Typed

variable {α : Type} {pin : Option PinId} {key : String} {result : Typed α}

theorem typed_eq_pure {a : α} (h : result.run = .ok (.ok a)) : typed pin key result = pure a := by
  rw [typed, h]
  rfl

theorem typed_eq_throw {cause : TypeError} (h : result.run = .ok (.error cause)) :
    typed pin key result = throw (.type pin key cause) := by
  rw [typed, h]
  rfl

theorem typed_eq_fault {fault : Fault} (h : result.run = .error fault) :
    typed pin key result = liftM (.error fault : Checked α) := by
  rw [typed, h]
  rfl

end Typed

namespace Context

/-- One walk from two states that differ in their watches. -/
def blindCoupling (cx : Context) : Coupling cx cx where
  rel u s := u.Alike cx.tree.graph s ∧ u.Unmirrored cx.tree.graph
  good _ _ := True
  strict := True
  twin o o' := o = o' ∧ o.memory ≠ .debug
  addr := (· = ·)
  jump := (· = ·)
  known _ := True

variable {cx : Context} {key : String} {p : Proxy} {α β : Type} {stack : CallStack} {o : Operand}
  {Q : α → β → Prop} {function : FunctionDefinition} {v : LocalVariable}

instance : cx.blindCoupling.Coherent := ⟨fun _ _ _ => trivial, fun _ _ _ => trivial⟩

/-- Attempts that begin with a look at the state. -/
theorem meets_get_bind {cx' : Context} {C : Coupling cx cx'} {f : State → Attempt α} {f' : State → Attempt β}
    {P : Except LowerError α → State → Except LowerError β → State → Prop} {u s : State}
    (h : C.Meets P ((f u).run u) ((f' s).run s)) : C.Meets P ((get >>= f).run u) ((get >>= f').run s) := h

section Finding

variable (hg : cx.tree.graph.BareNames) (hsharing : cx.sharing.ExistsIn cx.tree.graph) {space : MemorySpace}

include hg hsharing

theorem blindTries_allocateWith {pin : Option PinId} (h : Makes cx.env.types cx.tree cx.sharing space key build)
    (hspace : space ≠ .debug) :
    cx.blindCoupling.Tries True (allocateWith key space pin build) (allocateWith key space pin build)
      cx.blindCoupling.twin := by
  refine Coupling.tries_of_finds (finds_allocateWith h) (finds_allocateWith h) ?_
  rintro u _ ⟨⟨storage, report, mirrors, rfl, halike⟩, hu⟩
  have hkey := h.not_watchKey hg hsharing hspace
  unfold allocateWith
  refine meets_get_bind ?_
  dsimp only
  rw [← halike.keyed hkey]
  cases hfound : u.storage.keyed.lookup key with
  | some o => exact fun _ => ⟨⟨⟨storage, report, mirrors, rfl, halike⟩, hu⟩, rfl, hu.storage hkey hfound⟩
  | none =>
    dsimp only
    cases hbuild : build.run with
    | error fault =>
      rw [typed_eq_fault hbuild]
      exact fun _ => rfl
    | ok r => cases r with
      | error cause =>
        rw [typed_eq_throw hbuild]
        exact fun _ _ => ⟨⟨⟨storage, report, mirrors, rfl, halike⟩, hu⟩, rfl⟩
      | ok r =>
        rw [typed_eq_pure hbuild, pure_bind]
        refine meets_get_bind ?_
        dsimp only
        cases hadd : u.storage.addRegister space r with
        | none =>
          rw [halike.addRegister_none hspace hadd]
          exact fun _ _ => ⟨⟨⟨storage, report, mirrors, rfl, halike⟩, hu⟩, rfl⟩
        | some added =>
          obtain ⟨⟨storage', hadd', halike'⟩, hu', hmemory⟩ := halike.addRegister hspace hadd hu.storage
          rw [hadd']
          exact fun _ => ⟨⟨⟨storage', report, mirrors, rfl, halike'⟩, { hu with storage := hu' }⟩, rfl, hmemory⟩

theorem blindTries_allocate {spec : RegisterSpec}
    (h : Makes cx.env.types cx.tree cx.sharing space key (cx.env.types.buildRegister key spec))
    (hspace : space ≠ .debug) :
    cx.blindCoupling.Tries True (cx.allocate key space spec) (cx.allocate key space spec) cx.blindCoupling.twin :=
  blindTries_allocateWith hg hsharing h hspace

theorem blindTries_caseLabel (n : Nat) :
    cx.blindCoupling.Tries True (cx.caseLabel n) (cx.caseLabel n) cx.blindCoupling.twin :=
  blindTries_allocate hg hsharing (.label n) (by decide)

theorem blindTries_comparisonScratch :
    cx.blindCoupling.Tries True cx.comparisonScratch cx.comparisonScratch cx.blindCoupling.twin :=
  blindTries_allocate hg hsharing .scratch (by decide)

theorem blindTries_localOperand {callSite : CallStack} (hv : cx.tree.DeclaresAt callSite function v) :
    cx.blindCoupling.Tries True (cx.localOperand callSite function.name v) (cx.localOperand callSite function.name v)
      cx.blindCoupling.twin := by
  unfold localOperand
  refine Coupling.Tries.seq (blindTries_allocate hg hsharing (.localDefault hv) (by decide)) fun _ _ => ?_
  exact Coupling.tries_lift_bind fun key hkey => blindTries_allocate hg hsharing (.localVariable hv hkey) (by decide)

theorem blindTries_allocateFor (hspace : space ≠ .debug)
    (h : ∀ {frames spec}, pinSpec cx.tree.graph frames p = .ok spec →
      Makes cx.env.types cx.tree cx.sharing space key (cx.env.types.buildRegister key spec)) :
    cx.blindCoupling.Tries True (cx.allocateFor key space p) (cx.allocateFor key space p) cx.blindCoupling.twin := by
  refine Coupling.tries_of_finds (finds_allocateFor h) (finds_allocateFor h) ?_
  intro u s hrel
  have hframes : s.frames = u.frames := by
    obtain ⟨⟨storage, report, mirrors, rfl, -⟩, -⟩ := hrel
    rfl
  unfold allocateFor
  refine meets_get_bind ?_
  rw [hframes]
  have hspec : cx.blindCoupling.Tries True
      (do cx.allocate key space (← pinSpec cx.tree.graph u.frames p))
      (do cx.allocate key space (← pinSpec cx.tree.graph u.frames p)) cx.blindCoupling.twin :=
    Coupling.tries_lift_bind fun spec hspec => blindTries_allocate hg hsharing (h hspec) hspace
  exact hspec.attempts trivial hrel

theorem blindTries_variableOperand :
    cx.blindCoupling.Tries True (cx.variableOperand p) (cx.variableOperand p) cx.blindCoupling.twin := by
  unfold variableOperand
  dsimp only
  cases hid : p.pin? with
  | none => exact Coupling.tries_throw
  | some id =>
    refine Coupling.tries_lift_bind fun pin hpin => Coupling.tries_lift_bind fun node hnode => ?_
    have hon := Proxy.isOn_of_ok hid hpin hnode
    generalize node.kind = kind at hon
    cases kind with
    | parameter name isInput => exact blindTries_allocateFor hg hsharing (by decide) (.parameter name _ hon)
    | variableAccess name isGetter =>
      refine Coupling.tries_lift_bind fun found hfound => ?_
      cases found with
      | some access => exact blindTries_localOperand hg hsharing (Tree.declaresAt_of_findLocal hfound)
      | none =>
        dsimp only
        cases cx.env.externalIndex? name with
        | some index => exact Coupling.tries_pure fun _ => ⟨rfl, by simp⟩
        | none => exact Coupling.tries_throw
    | _ => exact Coupling.tries_throw

theorem blindTries_rootOperand (hp : p.IsRoot cx.tree.graph) :
    cx.blindCoupling.Tries True (cx.rootOperand p) (cx.rootOperand p) cx.blindCoupling.twin := by
  unfold rootOperand
  dsimp only
  refine Coupling.tries_lift_bind fun found hfound => ?_
  cases found with
  | some member => exact blindTries_variableOperand hg hsharing
  | none =>
    exact Coupling.tries_lift_bind fun path hpath =>
      blindTries_allocateFor hg hsharing (by decide) (.value _ hp hfound hpath)

omit hg hsharing in
theorem blindTries_member {base' : Operand} {id : PinId} : cx.blindCoupling.Tries
    (True ∧ cx.blindCoupling.twin base base') (cx.memberOperand p id base) (cx.memberOperand p id base')
      cx.blindCoupling.twin := by
  refine ⟨Finds.tries finds_member, Finds.tries finds_member, ?_⟩
  rintro ⟨-, rfl, hbase⟩ u _ ⟨⟨storage, report, mirrors, rfl, halike⟩, hu⟩
  refine meets_get_bind ?_
  dsimp only
  cases cx.tree.graph.propertySegments id with
  | error f => exact fun _ => rfl
  | ok segments =>
    rw [show (liftM (Except.ok segments : Checked String) : Attempt String) = pure segments from rfl, pure_bind,
      pure_bind]
    cases hadd : u.storage.addPath base segments with
    | none =>
      rw [halike.addPath_none hbase hadd]
      dsimp only
      cases p.path cx.tree.graph with
      | error f => exact fun _ => rfl
      | ok path => exact fun _ _ => ⟨⟨⟨storage, report, mirrors, rfl, halike⟩, hu⟩, rfl⟩
    | some added =>
      obtain ⟨⟨storage', hadd', halike'⟩, hu', hmemory⟩ := halike.addPath hbase hadd hu.storage
      rw [hadd']
      exact fun _ => ⟨⟨⟨storage', report, mirrors, rfl, halike'⟩, { hu with storage := hu' }⟩, rfl, hmemory⟩

theorem blindTries_valueOperand :
    cx.blindCoupling.Tries True (cx.valueOperand p) (cx.valueOperand p) cx.blindCoupling.twin := by
  unfold valueOperand
  dsimp only
  cases hid : p.pin? with
  | none => exact Coupling.tries_throw
  | some id =>
    refine Coupling.tries_lift_bind fun pin hpin => ?_
    split
    · next hroot => exact blindTries_rootOperand hg hsharing ⟨id, pin, hid, Graph.pin_eq_ok.1 hpin, hroot⟩
    · refine Coupling.tries_lift_bind fun root hroot => ?_
      exact (blindTries_rootOperand hg hsharing (Proxy.isRoot_withPin hroot)).bind fun _ _ => blindTries_member

theorem blindTries_constantOperand :
    cx.blindCoupling.Tries True (cx.constantOperand p) (cx.constantOperand p) cx.blindCoupling.twin := by
  unfold constantOperand
  dsimp only
  cases hid : p.pin? with
  | none => exact Coupling.tries_throw
  | some id =>
    refine Coupling.tries_lift_bind fun pin hpin => Coupling.tries_lift_bind fun path hpath => ?_
    have hsuffix : (if pin.direction = .inOut then "::IO" else "::Const") = "::IO" ∨
        (if pin.direction = .inOut then "::IO" else "::Const") = "::Const" := by
      split <;> simp
    exact blindTries_allocateFor hg hsharing (by decide) (.constant _ (by simp [hid]) hpath hsuffix)

omit hg hsharing in
theorem blindTries_externalOperand :
    cx.blindCoupling.Tries True (cx.externalOperand p) (cx.externalOperand p) cx.blindCoupling.twin := by
  unfold externalOperand
  dsimp only
  cases p.pin? with
  | none => exact Coupling.tries_throw
  | some id =>
    refine Coupling.tries_lift_bind fun pin _ => ?_
    split
    · refine Coupling.tries_lift_bind fun name _ => ?_
      cases cx.env.externalIndex? name with
      | some index => exact Coupling.tries_pure fun _ => ⟨rfl, by simp⟩
      | none => exact Coupling.tries_throw
    · exact Coupling.tries_lift_bind fun _ _ => Coupling.tries_throw

end Finding

/-! ## Emission -/

variable {u s : State}

/-- Updates that look at what is the same on both sides, and keep operands and instructions. -/
theorem blindSteps_modify {f : State → State}
    (hf : ∀ u storage report mirrors, f { u with storage := storage, report := report, mirrors := mirrors } =
      { f u with storage := storage, report := report, mirrors := mirrors })
    (hstorage : ∀ u, (f u).storage = u.storage) (hoperands : ∀ u, (f u).operands = u.operands)
    (hcode : ∀ u, (f u).code.instructions = u.code.instructions) :
    cx.blindCoupling.Steps (modify f) (modify f) fun _ _ => True := by
  rintro u _ ⟨⟨storage, report, mirrors, rfl, halike⟩, hu⟩ -
  refine ⟨⟨⟨storage, report, mirrors, hf u storage report mirrors, hstorage u ▸ halike⟩, ?_, ?_, ?_⟩, trivial⟩
  · rw [hstorage]
    exact hu.storage
  · rw [hoperands]
    exact hu.operands
  · rw [hcode]
    exact hu.code

/-- An instruction that does not mention watches. -/
theorem blindMeets_emitUnder (hrel : cx.blindCoupling.rel u s) (hi : ∀ o ∈ i.operands, o.memory ≠ .debug) :
    cx.blindCoupling.Meets (fun _ u _ s => cx.blindCoupling.rel u s) (cx.emitUnder stack i u)
      (cx.emitUnder stack i s) := by
  cases hpass : cx.pass with
  | setup =>
    rw [emitUnder_setup hpass, emitUnder_setup hpass]
    exact fun _ => rfl
  | emit =>
    obtain ⟨⟨storage, report, mirrors, rfl, halike⟩, hu⟩ := hrel
    rw [emitUnder_apply hpass, emitUnder_apply hpass]
    show Coupling.Meets _ _ (blocksAfter u.openBlocks i >>= _) (blocksAfter u.openBlocks i >>= _)
    cases blocksAfter u.openBlocks i with
    | error f => exact fun _ => rfl
    | ok n =>
      refine fun _ => ⟨⟨storage, report, mirrors, rfl, halike⟩, { hu with code := fun j hj => ?_ }⟩
      rcases List.mem_append.1 hj with hj | hj
      · exact hu.code j hj
      · rw [List.mem_singleton.1 hj]
        exact hi

theorem blindWalks_emitUnder (hi : ∀ o ∈ i.operands, o.memory ≠ .debug) :
    cx.blindCoupling.Walks True (cx.emitUnder stack i) (cx.emitUnder stack i) fun _ _ => True :=
  ⟨keeps_emitUnder _ _, keeps_emitUnder _ _, fun _ _ _ hrel =>
    (blindMeets_emitUnder hrel hi).mono fun _ _ _ _ h => ⟨h, trivial⟩⟩

theorem blindSteps_emit (hi : ∀ o ∈ i.operands, o.memory ≠ .debug) :
    cx.blindCoupling.Steps (cx.emit i) (cx.emit i) fun _ _ => True := by
  intro u s hrel
  have hstack : s.callStack = u.callStack := by
    obtain ⟨⟨storage, report, mirrors, rfl, -⟩, -⟩ := hrel
    rfl
  show Coupling.Meets _ _ (cx.emitUnder u.callStack i u) (cx.emitUnder s.callStack i s)
  rw [hstack]
  exact (blindWalks_emitUnder hi).steps trivial hrel

theorem blindSteps_copyValue {q : Operand} (ho : o.memory ≠ .debug) (hq : q.memory ≠ .debug) :
    cx.blindCoupling.Steps (cx.copyValue o q) (cx.copyValue o q) fun _ _ => True := by
  intro u s hrel
  unfold copyValue
  split
  · exact fun _ => ⟨hrel, trivial⟩
  · exact blindSteps_emit (by simpa using ⟨ho, hq⟩) hrel

/-- Where a jump goes changes no operand. -/
theorem blindSteps_land (address : Nat) : cx.blindCoupling.Steps (land address) (land address) fun _ _ => True := by
  rintro u _ ⟨⟨storage, report, mirrors, rfl, halike⟩, hu⟩
  unfold land
  rw [Step.get_bind_apply, Step.get_bind_apply, Step.lift_bind_apply, Step.lift_bind_apply]
  show Coupling.Meets _ _ (u.code.setOffset address (u.code.size - address) >>= _)
    (u.code.setOffset address (u.code.size - address) >>= _)
  cases hcode : u.code.setOffset address (u.code.size - address) with
  | error f => exact fun _ => rfl
  | ok code =>
    refine fun _ => ⟨⟨⟨storage, report, mirrors, rfl, halike⟩, { hu with code := fun j hj => ?_ }⟩, trivial⟩
    have hshape : j.shape ∈ u.code.shape := by
      rw [← Bytecode.shape_setOffset hcode]
      exact List.mem_map_of_mem hj
    obtain ⟨i, hi, heq⟩ := List.mem_map.1 hshape
    rw [← j.operands_shape, ← heq, i.operands_shape]
    exact hu.code i hi

/-! ## Entering call sites -/

section Entering

variable (hg : cx.tree.graph.BareNames) (hsharing : cx.sharing.ExistsIn cx.tree.graph) {callSite : CallStack}

include hg hsharing

theorem blindWalks_prepareLocals :
    cx.blindCoupling.Walks True (cx.prepareLocals callSite) (cx.prepareLocals callSite) fun _ _ => True := by
  refine Coupling.walks_prepareLocals rfl trivial ?_ fun hv => (blindTries_localOperand hg hsharing hv).attempts trivial
  rintro site message u _ ⟨⟨storage, report, mirrors, rfl, halike⟩, hu⟩ -
  exact ⟨⟨⟨storage, _, mirrors, rfl, halike⟩, { hu with }⟩, trivial⟩

theorem blindWalks_emitInitializer (hv : cx.tree.DeclaresAt callSite function v) :
    cx.blindCoupling.Walks True (cx.emitInitializer callSite function.name v)
      (cx.emitInitializer callSite function.name v) fun _ _ => True := by
  refine ⟨keeps_emitInitializer, keeps_emitInitializer, fun _ u s hrel => ?_⟩
  obtain ⟨⟨storage, report, mirrors, rfl, halike⟩, hu⟩ := hrel
  have hrel : cx.blindCoupling.rel u { u with storage := storage, report := report, mirrors := mirrors } :=
    ⟨⟨storage, report, mirrors, rfl, halike⟩, hu⟩
  unfold emitInitializer
  rw [Step.lift_bind_apply, Step.lift_bind_apply]
  cases hkey : localKey cx.tree.graph callSite v.name with
  | error f => exact fun _ => rfl
  | ok key =>
    rw [Checked.ok_bind, Checked.ok_bind, Step.get_bind_apply, Step.get_bind_apply]
    have hlocal : ¬ WatchKey cx.tree.graph key :=
      (Makes.localVariable hv hkey : Makes cx.env.types cx.tree cx.sharing _ _ _).not_watchKey hg hsharing (by decide)
    have hdefault : ¬ WatchKey cx.tree.graph (localDefaultKey function.name v.name) :=
      (Makes.localDefault hv : Makes cx.env.types cx.tree cx.sharing _ _ _).not_watchKey hg hsharing (by decide)
    dsimp only
    rw [← halike.keyed hlocal, ← halike.keyed hdefault]
    cases hsource : u.storage.keyed.lookup (localDefaultKey function.name v.name) with
    | none => exact fun _ => ⟨hrel, trivial⟩
    | some source => cases htarget : u.storage.keyed.lookup key with
      | none => exact fun _ => ⟨hrel, trivial⟩
      | some target =>
        have hoperands : ∀ o ∈ (Instruction.copy source target).operands, o.memory ≠ .debug := by
          simpa using ⟨hu.storage hdefault hsource, hu.storage hlocal htarget⟩
        exact (blindWalks_emitUnder hoperands).steps trivial hrel

theorem blindWalks_emitInitializers :
    cx.blindCoupling.Walks True (cx.emitInitializers callSite) (cx.emitInitializers callSite) fun _ _ => True := by
  rw [emitInitializers_eq]
  refine Coupling.walks_lift_bind fun function hfunction => ?_
  cases function with
  | none => exact Coupling.walks_pure fun _ => trivial
  | some function => exact Coupling.walks_forM fun v hv => blindWalks_emitInitializer hg hsharing ⟨hfunction, hv⟩

theorem blindWalks_initializeSite :
    cx.blindCoupling.Walks True (cx.initializeSite callSite) (cx.initializeSite callSite) fun _ _ => True := by
  refine ⟨keeps_initializeSite, keeps_initializeSite, fun _ u s hrel => ?_⟩
  obtain ⟨⟨storage, report, mirrors, rfl, halike⟩, hu⟩ := hrel
  unfold initializeSite
  rw [Step.get_bind_apply, Step.get_bind_apply]
  dsimp only
  cases hpass : cx.pass with
  | setup =>
    dsimp only
    split
    · exact fun _ => ⟨⟨⟨storage, report, mirrors, rfl, halike⟩, hu⟩, trivial⟩
    · exact (blindWalks_prepareLocals hg hsharing).steps trivial ⟨⟨storage, report, mirrors, rfl, halike⟩, { hu with }⟩
  | emit =>
    dsimp only
    split
    · exact fun _ => ⟨⟨⟨storage, report, mirrors, rfl, halike⟩, hu⟩, trivial⟩
    · have hrest (skip : Bool) (start : Nat) : cx.blindCoupling.Walks True
          (if skip then return () else do cx.emitInitializers callSite; recordInitializers callSite start)
          (if skip then return () else do cx.emitInitializers callSite; recordInitializers callSite start)
          fun _ _ => True := by
        split
        · exact Coupling.walks_pure fun _ => trivial
        · refine (blindWalks_emitInitializers hg hsharing).seq fun _ _ => ?_
          exact ⟨keeps_recordInitializers, keeps_recordInitializers, fun _ =>
            blindSteps_modify (fun _ _ _ _ => rfl) (fun _ => rfl) (fun _ => rfl) fun _ => rfl⟩
      exact (hrest _ _).steps trivial ⟨⟨storage, report, mirrors, rfl, halike⟩, { hu with }⟩

/-- Entering a call stack looks for no watches. -/
theorem blindMeets_enter (hrel : cx.blindCoupling.rel u s) :
    cx.blindCoupling.Meets (fun _ u _ s => cx.blindCoupling.rel u s) (cx.enter stack u) (cx.enter stack s) := by
  have hlocals : cx.blindCoupling.Walks True (cx.initializeLocals stack) (cx.initializeLocals stack) fun _ _ => True :=
    Coupling.walks_forM fun _ _ => blindWalks_initializeSite hg hsharing
  refine Coupling.meets_enter hrel rfl ?_ ?_
    (fun hrel => (hlocals.steps trivial hrel).mono fun _ _ _ _ h => h.1) ?_
  · rintro u _ ⟨⟨storage, report, mirrors, rfl, -⟩, -⟩
    rfl
  · rintro u _ ⟨⟨storage, report, mirrors, rfl, halike⟩, hu⟩ frames
    exact ⟨⟨storage, report, mirrors, rfl, halike⟩, { hu with }⟩
  · rintro u _ ⟨⟨storage, report, mirrors, rfl, halike⟩, hu⟩
    exact ⟨⟨storage, report, mirrors, rfl, halike⟩, { hu with }⟩

end Entering

/-! ## Watches -/

section Watches

variable (hsharing : cx.sharing.ExistsIn cx.tree.graph) {e : ExprId}

include hsharing

theorem alike_watchOperand : Attempt.Ends (fun _ => True) u (cx.watchOperand p)
    (fun _ u' => u.Alike cx.tree.graph u') fun _ _ => True := by
  unfold watchOperand
  dsimp only
  cases hid : p.pin? with
  | none => trivial
  | some id =>
    refine Attempt.ends_lift_bind fun pin _ => ?_
    refine Attempt.ends_lift_bind fun path hpath => ?_
    have hkey : WatchKey cx.tree.graph (path ++ "::Debug") :=
      ⟨_, path, Sharing.isSome_pin?_representative hsharing (by simp [hid]), hpath, rfl⟩
    refine Attempt.ends_get_bind.2 ?_
    split
    · exact .refl u
    · refine Attempt.ends_bind.2 (ends_typed.mono ?_ fun _ _ _ => trivial)
      rintro r _ ⟨rfl, hr⟩
      refine Attempt.ends_get_bind.2 ?_
      split
      · trivial
      · next storage o hadd =>
        rw [← name_buildWatch hr] at hkey
        exact ⟨storage, _, _, rfl, Storage.alike_addRegister hkey hadd⟩

/-- A watch changes nothing else. -/
theorem alike_watch : Attempt.Ends (fun _ => True) u (cx.watch e o) (fun _ u' => u.Alike cx.tree.graph u')
    fun _ _ => True := by
  unfold watch
  refine Attempt.ends_lift_bind fun x _ => ?_
  cases x.proxy with
  | none => exact .refl u
  | some p =>
    refine Attempt.ends_lift_bind fun path _ => ?_
    split
    · refine Attempt.ends_bind.2 ((alike_watchOperand hsharing).mono (fun mirror u' h => ?_) fun _ _ _ => trivial)
      exact h.trans ⟨u'.storage, u'.report, _, rfl, .refl _⟩
    · exact .refl u

end Watches

/-! ## Walks with other watches -/

/-- The same walk that watches other pins. -/
def watching (cx : Context) (pins : List String) (enabled : Bool) : Context :=
  { cx with options := { cx.options with watchedPins := pins, enablePinWatches := enabled } }

/-- Walks that watch different pins differ in their watches, as long as no expression fails. -/
def watchCoupling (cx : Context) (pins : List String) (enabled : Bool) : Coupling cx (cx.watching pins enabled) where
  rel := cx.blindCoupling.rel
  good u s := u.failed = [] ∧ s.failed = []
  strict := False
  twin := cx.blindCoupling.twin
  addr := (· = ·)
  jump := (· = ·)
  known _ := True

variable {pins : List String} {enabled : Bool}

instance : (cx.watchCoupling pins enabled).Coherent where
  good_of_strict h := h.elim
  good_of_extends hu hs h :=
    ⟨List.eq_nil_of_subset_nil (h.1 ▸ hu.failed), List.eq_nil_of_subset_nil (h.2 ▸ hs.failed)⟩

theorem watchMeets_of_blind {P Q : α → State → β → State → Prop} {x : Checked (α × State)}
    {y : Checked (β × State)} (h : cx.blindCoupling.Meets P x y) (hPQ : ∀ a u b s, P a u b s → Q a u b s) :
    (cx.watchCoupling pins enabled).Meets Q x y := by
  refine Coupling.meets_of_not_strict id ?_
  rintro a u b s rfl rfl -
  exact hPQ a u b s (h trivial)

theorem watchSteps_of_blind {m : Step α} {m' : Step β} (h : cx.blindCoupling.Steps m m' Q) :
    (cx.watchCoupling pins enabled).Steps m m' Q := fun _ _ hrel =>
  watchMeets_of_blind (h hrel) fun _ _ _ _ h => h

theorem watchAttempts_of_blind {m : Attempt α} {m' : Attempt β} (h : cx.blindCoupling.Attempts m m' Q) :
    (cx.watchCoupling pins enabled).Attempts m m' Q := fun _ _ hrel =>
  watchMeets_of_blind (h hrel) fun r u r' s h => by
    cases r with
    | error e => cases r' with
      | error e' => exact False.elim
      | ok b => exact id
    | ok a => cases r' with
      | error e' => exact id
      | ok b => exact h

theorem watchAttempts_watch (hsharing : cx.sharing.ExistsIn cx.tree.graph) {e : ExprId} {o' : Operand} :
    (cx.watchCoupling pins enabled).Attempts (cx.watch e o) ((cx.watching pins enabled).watch e o')
      fun _ _ => True := by
  rintro u s ⟨halike, hu⟩
  refine Coupling.meets_of_not_strict id fun r u' r' s' hr hr' _ => ?_
  cases r with
  | error error => exact Coupling.agrees_of_not_strict id (.inl ⟨error, rfl⟩) _ _
  | ok _ => cases r' with
    | error error => exact Coupling.agrees_of_not_strict id (.inr ⟨error, rfl⟩) _ _
    | ok _ =>
      have hsharing' : (cx.watching pins enabled).sharing.ExistsIn (cx.watching pins enabled).tree.graph := hsharing
      have hleft : u.Alike cx.tree.graph u' := Checked.Ends.of_ok (a := (.ok _, u')) (alike_watch hsharing) hr
      have hright : s.Alike cx.tree.graph s' := Checked.Ends.of_ok (a := (.ok _, s')) (alike_watch hsharing') hr'
      exact ⟨⟨hleft.symm.trans (halike.trans hright), hleft.unmirrored hu⟩, trivial⟩

variable (pins enabled) in
theorem lawful_watchCoupling (hg : cx.tree.graph.BareNames) (hsharing : cx.sharing.ExistsIn cx.tree.graph) :
    (cx.watchCoupling pins enabled).Lawful where
  tree := rfl
  env := rfl
  pass := rfl
  failed_of_good _ h := h
  known_child _ _ _ _ := trivial
  callStack := by rintro u _ ⟨⟨storage, report, mirrors, rfl, -⟩, -⟩; rfl
  failed := by rintro u _ ⟨⟨storage, report, mirrors, rfl, -⟩, -⟩ e; rfl
  visited := by rintro u _ ⟨⟨storage, report, mirrors, rfl, -⟩, -⟩ e; rfl
  visit := by
    rintro u _ e - ⟨⟨storage, report, mirrors, rfl, halike⟩, hu⟩
    exact ⟨⟨storage, report, mirrors, rfl, halike⟩, { hu with }⟩
  addr_size := by rintro u _ ⟨⟨storage, report, mirrors, rfl, -⟩, -⟩; rfl
  span := by
    rintro u _ ⟨⟨storage, report, mirrors, rfl, halike⟩, hu⟩ e start _ rfl
    exact ⟨⟨storage, report, mirrors, rfl, halike⟩, { hu with }⟩
  enter _ _ hrel := watchMeets_of_blind (blindMeets_enter hg hsharing hrel) fun _ _ _ _ h => h
  leave := by
    rintro u u' _ _ ⟨⟨storage, report, mirrors, rfl, -⟩, -⟩ - - ⟨⟨storage', report', mirrors', rfl, halike⟩, hu⟩
    exact ⟨⟨storage', report', mirrors', rfl, halike⟩, { hu with }⟩
  fail _ _ h := h.elim
  warning subject message := by
    rintro u _ ⟨⟨storage, report, mirrors, rfl, halike⟩, hu⟩ -
    exact ⟨⟨⟨storage, _, mirrors, rfl, halike⟩, { hu with }⟩, trivial⟩
  emit h := by
    have hoperands := h.operands fun ho => ho.2
    obtain rfl := (h.mono fun _ _ ho => ho.1).eq
    exact watchSteps_of_blind (blindSteps_emit hoperands)
  copyValue := by
    rintro o _ q _ ⟨rfl, ho⟩ ⟨rfl, hq⟩
    exact watchSteps_of_blind (blindSteps_copyValue ho hq)
  reserve {i i'} h _ := by
    have hoperands := h.operands fun ho => ho.2
    obtain rfl := (h.mono fun _ _ ho => ho.1).eq
    refine Coupling.steps_reserve ?_ (watchSteps_of_blind (blindSteps_emit hoperands))
    rintro u _ ⟨⟨storage, report, mirrors, rfl, -⟩, -⟩
    rfl
  land h := h ▸ watchSteps_of_blind (blindSteps_land _)
  jumpBack := by
    rintro a _ rfl u _ ⟨⟨storage, report, mirrors, rfl, halike⟩, hu⟩
    exact watchSteps_of_blind (blindSteps_emit (i := .jumpBackward (u.code.size - a)) (by simp [Instruction.operands]))
      ⟨⟨storage, report, mirrors, rfl, halike⟩, hu⟩
  addEntry := by
    rintro u _ ⟨⟨storage, report, mirrors, rfl, halike⟩, hu⟩ name
    exact ⟨⟨storage, report, mirrors, rfl, halike⟩, { hu with }⟩
  constant p := watchAttempts_of_blind ((blindTries_constantOperand hg hsharing).attempts trivial)
  external p := watchAttempts_of_blind (blindTries_externalOperand.attempts trivial)
  value _ := watchAttempts_of_blind ((blindTries_valueOperand hg hsharing).attempts trivial)
  caseLabel n := watchAttempts_of_blind ((blindTries_caseLabel hg hsharing n).attempts trivial)
  scratch := watchAttempts_of_blind ((blindTries_comparisonScratch hg hsharing).attempts trivial)
  publish p := by
    rintro o _ ⟨rfl, -⟩
    exact Coupling.steps_publish rfl fun _ => watchSteps_of_blind
      (blindSteps_modify (fun _ _ _ _ => rfl) (fun _ => rfl) (fun _ => rfl) fun _ => rfl)
  lookup := by
    rintro u _ ⟨⟨storage, report, mirrors, rfl, -⟩, hu⟩ e
    show Option.Rel _ (u.operands.lookup e) (u.operands.lookup e)
    cases ho : u.operands.lookup e with
    | none => exact .none
    | some o => exact .some ⟨rfl, hu.operands _ (mem_of_lookup ho)⟩
  remember := by
    rintro u _ o _ ⟨⟨storage, report, mirrors, rfl, halike⟩, hu⟩ ⟨rfl, ho⟩ e
    exact ⟨⟨storage, report, mirrors, rfl, halike⟩, { hu with operands := List.forall_mem_cons.2 ⟨ho, hu.operands⟩ }⟩
  good_of_remember h := h
  watch e _ _ _ := watchAttempts_watch hsharing

end Context
end Lowering
end NodeGraph
