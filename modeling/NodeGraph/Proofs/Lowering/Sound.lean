import NodeGraph.Proofs.Graph.WellFormed
import NodeGraph.Proofs.Lowering.Storage
import NodeGraph.Proofs.Outcome

/-!
# Sound states

A state is sound if every operand it holds fits its storage, wherever the operand is kept, and if a
failed expression goes with a reported error. Finding an operand is quiet: it lets storage grow and
leaves the code and the record of the walk alone. `Resolves` is the form in which the functions that
find operands are specified: they end in a sound state, quietly, and a dependency is blamed only if
something has failed.
-/
namespace NodeGraph

/-! ## Instructions -/

namespace Instruction

/-- The operands of an instruction, in order. -/
@[simp] def operands : Instruction → List Operand
  | execute _ operands | array _ operands => operands
  | copy source target => [source, target]
  | zero operand | increment operand => [operand]
  | equals lhs rhs result => [lhs, rhs, result]
  | jumpIf condition _ _ => [condition]
  | beginBlock count index => [count, index]
  | jumpForward _ | jumpBackward _ | endBlock | exit => []

/-- Calls have a function of the catalog and an operand for each parameter, array operations one for
each pin. -/
@[simp] def HasArity (catalog : Catalog) : Instruction → Prop
  | execute function operands => ∃ signature, catalog.get? function = some signature ∧
      operands.length = signature.parameters.length
  | array op operands => operands.length = op.arity
  | _ => True

theorem withOffset?_eq_some {offset : Nat} {i j : Instruction} (h : i.withOffset? offset = some j) :
    j.operands = i.operands ∧ ∀ catalog, j.HasArity catalog := by
  cases i <;> simp only [withOffset?, Option.some.injEq, reduceCtorEq] at h <;> subst h <;>
    exact ⟨rfl, fun _ => trivial⟩

end Instruction

/-! ## Maps -/

namespace SortedMap

variable {κ ν : Type} [Ord κ] [Std.LawfulEqOrd κ] {m : SortedMap κ ν} {k : κ} {v : ν}

theorem mem_insert [Std.TransOrd κ] {entry : κ × ν} (h : entry ∈ (m.insert k v).toList) :
    entry = (k, v) ∨ entry ∈ m.toList :=
  mem_insertEntry h

theorem mem_of_get? (h : m.get? k = some v) : (k, v) ∈ m.toList := by
  unfold get? at h
  obtain ⟨entry, hfind, rfl⟩ := Option.map_eq_some_iff.1 h
  have heq := List.find?_some hfind
  have hk : k = entry.1 := by simpa using heq
  rw [hk]
  exact List.mem_of_find?_eq_some hfind

end SortedMap

namespace Lowering

/-! ## Soundness -/

variable {t : Tree} {env : Environment} {s s' s'' : State} {o : Operand}

/-- The operand fits the storage of the state. -/
def State.Holds (env : Environment) (s : State) (o : Operand) : Prop :=
  s.storage.Holds env.externals.length o

/-- The instruction has the operands it needs, and they fit the storage of the state. -/
def State.Accepts (env : Environment) (s : State) (i : Instruction) : Prop :=
  i.HasArity env.catalog ∧ ∀ o ∈ i.operands, s.Holds env o

/-- The operand is that of a register that collects the values of a pin. -/
def Storage.Mirror (g : Graph) (s : Storage) (o : Operand) : Prop :=
  ∃ (p : Proxy) (path : String), p.pin?.isSome = true ∧ p.path g = .ok path ∧ s.Named (path ++ "::Debug") o

theorem Storage.Mirror.mono {g : Graph} {a b : Storage} (h : a.Mirror g o) (hle : a.Le b) : b.Mirror g o := by
  obtain ⟨p, path, hp, hpath, ho⟩ := h
  exact ⟨p, path, hp, hpath, ho.mono hle⟩

/-- Every operand in the state fits its storage, keys name their registers, the call stack exists, and a
failed expression goes with a reported error. -/
structure State.Sound (t : Tree) (env : Environment) (s : State) : Prop where
  keyed : ∀ entry ∈ s.storage.keyed, s.Holds env entry.2 ∧ s.storage.Named entry.1 entry.2
  operands : ∀ entry ∈ s.operands, s.Holds env entry.2
  pinPaths : ∀ entry ∈ s.pinPaths.toList, s.Holds env entry.2
  mirrors : ∀ entry ∈ s.mirrors.toList, s.Holds env entry.1 ∧ ∀ m ∈ entry.2, s.Holds env m
  watched : ∀ entry ∈ s.mirrors.toList, ∀ m ∈ entry.2, s.storage.Mirror t.graph m
  code : ∀ i ∈ s.code.instructions, s.Accepts env i
  callStack : s.callStack.ExistsIn t.graph
  reported : s.failed ≠ [] → 0 < s.report.errors

/-- What finding an operand may do: storage grows, operands found before stay, and so do the code and the
record of the walk. -/
structure Quiet (s s' : State) : Prop where
  storage : s.storage.Le s'.storage
  code : s'.code = s.code
  openBlocks : s'.openBlocks = s.openBlocks
  visited : s'.visited = s.visited
  spans : s'.spans = s.spans
  failed : s'.failed = s.failed
  callStack : s'.callStack = s.callStack
  errors : s.report.errors ≤ s'.report.errors
  operands : ∀ {e o}, s.operands.lookup e = some o → s'.operands.lookup e = some o

theorem Quiet.refl (s : State) : Quiet s s :=
  ⟨.refl _, rfl, rfl, rfl, rfl, rfl, rfl, Nat.le_refl _, fun h => h⟩

theorem Quiet.trans (h : Quiet s s') (h' : Quiet s' s'') : Quiet s s'' :=
  ⟨h.storage.trans h'.storage, h'.code.trans h.code, h'.openBlocks.trans h.openBlocks,
    h'.visited.trans h.visited, h'.spans.trans h.spans, h'.failed.trans h.failed,
    h'.callStack.trans h.callStack, Nat.le_trans h.errors h'.errors, fun ho => h'.operands (h.operands ho)⟩

theorem Quiet.holds (h : Quiet s s') (ho : s.Holds env o) : s'.Holds env o :=
  Storage.Holds.mono ho h.storage

/-- Soundness depends on storage only through what fits it. -/
theorem State.Sound.grow (h : s.Sound t env) {storage : Storage} (hle : s.storage.Le storage)
    (hkeyed : ∀ entry ∈ storage.keyed,
      storage.Holds env.externals.length entry.2 ∧ storage.Named entry.1 entry.2) :
    State.Sound t env { s with storage := storage } where
  keyed := hkeyed
  operands entry he := (h.operands entry he).mono hle
  pinPaths entry he := (h.pinPaths entry he).mono hle
  mirrors entry he :=
    ⟨(h.mirrors entry he).1.mono hle, fun m hm => ((h.mirrors entry he).2 m hm).mono hle⟩
  watched entry he m hm := (h.watched entry he m hm).mono hle
  code i hi := ⟨(h.code i hi).1, fun o ho => ((h.code i hi).2 o ho).mono hle⟩
  callStack := h.callStack
  reported := h.reported

/-! ## Finding operands -/

variable {α β : Type} {F : Fault → Prop} {P : α → State → Prop} {Q : β → State → Prop}

/-- `m` quietly ends in a sound state, with `P` if it has a result. -/
def Resolves (t : Tree) (env : Environment) (F : Fault → Prop) (s : State) (m : Attempt α)
    (P : α → State → Prop) : Prop :=
  Attempt.Ends F s m (fun a s' => s'.Sound t env ∧ Quiet s s' ∧ P a s') fun e s' =>
    s'.Sound t env ∧ Quiet s s' ∧ (e = .dependencyFailed → s.failed ≠ [])

namespace Resolves

variable {m : Attempt α} {a : α} {f : α → Attempt β} {l : List α}

theorem pure (hs : s.Sound t env) (hp : P a s) : Resolves t env F s (pure a) P :=
  ⟨hs, .refl s, hp⟩

theorem mono {P' : α → State → Prop} (h : Resolves t env F s m P) (hp : ∀ a s', P a s' → P' a s') :
    Resolves t env F s m P' :=
  Attempt.Ends.mono h (fun a s' h => ⟨h.1, h.2.1, hp a s' h.2.2⟩) fun _ _ he => he

/-- It is known how quietly `m` ends. -/
theorem quiet (h : Resolves t env F s m P) : Resolves t env F s m fun a s' => P a s' ∧ Quiet s s' :=
  Attempt.Ends.mono h (fun _ _ h => ⟨h.1, h.2.1, h.2.2, h.2.1⟩) fun _ _ he => he

theorem throw (hs : s.Sound t env) {e : LowerError} (he : e ≠ .dependencyFailed) :
    Resolves t env F s (throw e) P :=
  ⟨hs, .refl s, fun h => absurd h he⟩

theorem bind (hm : Resolves t env F s m P)
    (hf : ∀ a s', s'.Sound t env → Quiet s s' → P a s' → Resolves t env F s' (f a) Q) :
    Resolves t env F s (m >>= f) Q := by
  refine Attempt.ends_bind.2 (Attempt.Ends.mono hm (fun a s1 h => ?_) fun _ _ he => he)
  obtain ⟨h1, q1, p1⟩ := h
  refine Attempt.Ends.mono (hf a s1 h1 q1 p1) (fun b s2 h => ?_) fun e s2 h => ?_
  · exact ⟨h.1, q1.trans h.2.1, h.2.2⟩
  · exact ⟨h.1, q1.trans h.2.1, fun he => by rw [← q1.failed]; exact h.2.2 he⟩

/-- A checked value that is there can be used. -/
theorem ok_bind {x : Checked α} (hx : x = .ok a) (hf : Resolves t env F s (f a) Q) :
    Resolves t env F s (liftM x >>= f) Q := by
  subst hx
  exact hf

/-- A quiet step has no error. -/
theorem step {m : Step α} (h : Step.Ends F s m fun a s' => s'.Sound t env ∧ Quiet s s' ∧ P a s') :
    Resolves t env F s (liftM m) P :=
  Attempt.ends_step.2 h

theorem get_bind {f : State → Attempt β} (hf : Resolves t env F s (f s) Q) :
    Resolves t env F s (get >>= f) Q :=
  hf

theorem modify_bind {g : State → State} {f : PUnit → Attempt β} (hg : (g s).Sound t env)
    (hq : Quiet s (g s)) (hf : Resolves t env F (g s) (f ⟨⟩) Q) :
    Resolves t env F s (modify g >>= f) Q :=
  bind (P := fun _ s' => s' = g s) ⟨hg, hq, rfl⟩ fun _ _ _ _ h => by subst h; exact hf

theorem forM {f : α → Attempt PUnit} (hs : s.Sound t env)
    (hf : ∀ a ∈ l, ∀ s', s'.Sound t env → Quiet s s' → Resolves t env F s' (f a) fun _ _ => True) :
    Resolves t env F s (l.forM f) fun _ _ => True := by
  refine Attempt.Ends.mono (Attempt.ends_forM (fun _ s' => s'.Sound t env ∧ Quiet s s')
    ⟨hs, .refl s⟩ ?_) (fun _ _ h => ⟨h.1, h.2, trivial⟩) fun _ _ he => he
  rintro done a rest rfl s1 ⟨h1, q1⟩
  refine Attempt.Ends.mono (hf a (by simp) s1 h1 q1) (fun _ s2 h => ⟨h.1, q1.trans h.2.1⟩)
    fun e s2 h => ⟨h.1, q1.trans h.2.1, fun he => by rw [← q1.failed]; exact h.2.2 he⟩

/-- Operands found one after the other, for one thing each. -/
theorem mapM {f : α → Attempt Operand} {R : α → Operand → State → Prop} (hs : s.Sound t env)
    (hR : ∀ {a o s' s''}, Quiet s' s'' → R a o s' → R a o s'')
    (hf : ∀ a ∈ l, ∀ s', s'.Sound t env → Quiet s s' →
      Resolves t env F s' (f a) fun o s'' => s''.Holds env o ∧ R a o s'') :
    Resolves t env F s (l.mapM f) fun os s' => os.length = l.length ∧ (∀ o ∈ os, s'.Holds env o) ∧
      ∀ x ∈ l.zip os, R x.1 x.2 s' := by
  refine Attempt.Ends.mono (Attempt.ends_mapM (fun found s' => s'.Sound t env ∧ Quiet s s' ∧
    ∀ x ∈ found, s'.Holds env x.2 ∧ R x.1 x.2 s') ⟨hs, .refl s, by simp⟩ ?_)
    (fun os s' h => ⟨h.2.1, h.2.2.1, h.1, fun o ho => ?_, fun x hx => (h.2.2.2 x hx).2⟩) fun _ _ he => he
  · rintro a ha found s1 ⟨h1, q1, hfound⟩
    refine Attempt.Ends.mono (hf a ha s1 h1 q1) (fun o s2 h => ⟨h.1, q1.trans h.2.1, fun x hx => ?_⟩)
      fun e s2 h => ⟨h.1, q1.trans h.2.1, fun he => by rw [← q1.failed]; exact h.2.2 he⟩
    rcases List.mem_append.1 hx with hx | hx
    · exact ⟨h.2.1.holds (hfound x hx).1, hR h.2.1 (hfound x hx).2⟩
    · rw [List.mem_singleton.1 hx]
      exact h.2.2
  · obtain ⟨n, hn, rfl⟩ := List.mem_iff_getElem.1 ho
    have hzip : n < (l.zip os).length := by
      rw [List.length_zip]
      omega
    have hmem := h.2.2.2 _ (List.getElem_mem hzip)
    rw [List.getElem_zip] at hmem
    exact hmem.1

end Resolves
end Lowering
end NodeGraph
