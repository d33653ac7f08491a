import NodeGraph.Proofs.Lowering.Account
import NodeGraph.Proofs.Lowering.Alignment
import NodeGraph.Proofs.Lowering.Control
import NodeGraph.Proofs.Lowering.CoupledWalk
import NodeGraph.Proofs.Lowering.Locals

/-!
# Entries and exits

The code of an entry is that of its children, one after the other, and an exit unless one of the children is
an exit. But an expression has its code where it was met first: the code of a child may also be in front of
the entry, or inside the code of another child (`State.Placed`). This is followed through the walk, whatever
the tree looks like, and so every row of the table of entries leads to the code of an entry
(`Tree.Entered`).
-/
namespace NodeGraph

theorem Instruction.eq_of_shape {i j : Instruction} (h : i.shape = j)
    (hj : j = .exit ∨ ∃ source target, j = .copy source target) : i = j := by
  rcases hj with rfl | ⟨source, target, rfl⟩ <;> cases i <;> first | exact h | cases h

namespace Lowering

/-! ## Code that stays -/

namespace State

variable {s s' s'' : State} {lo hi a start stop : Nat} {met children : List ExprId} {y : ExprId}

/-- What was met and emitted stays, but for where jumps go. -/
structure Follows (s s' : State) : Prop where
  visited : s.visited <:+ s'.visited
  failed : s.failed ⊆ s'.failed
  spans : s.spans ⊆ s'.spans
  shape : s.code.shape <+: s'.code.shape

theorem Follows.refl (s : State) : s.Follows s where
  visited := List.suffix_rfl
  failed _ h := h
  spans _ h := h
  shape := List.prefix_rfl

theorem Follows.trans (h : s.Follows s') (h' : s'.Follows s'') : s.Follows s'' where
  visited := h.visited.trans h'.visited
  failed := List.Subset.trans h.failed h'.failed
  spans := List.Subset.trans h.spans h'.spans
  shape := h.shape.trans h'.shape

theorem Follows.size_le (h : s.Follows s') : s.code.size ≤ s'.code.size := by
  simpa [Bytecode.shape, Bytecode.size] using h.shape.length_le

/-- An address has the same instruction as before, but for where a jump goes. -/
theorem Follows.shape_at (h : s.Follows s') {i : Instruction} (hi : At 0 s'.code.instructions a i)
    (hlt : a < s.code.size) : ∃ j, At 0 s.code.instructions a j ∧ i.shape = j.shape := by
  obtain ⟨rest, hrest⟩ := h.shape
  obtain ⟨j, hold⟩ : ∃ j, s.code.instructions[a]? = some j := ⟨_, List.getElem?_eq_getElem hlt⟩
  refine ⟨j, ⟨Nat.zero_le a, hold⟩, ?_⟩
  have hshape : s'.code.shape[a]? = s.code.shape[a]? := by
    rw [← hrest, List.getElem?_append_left (by simpa [Bytecode.shape, Bytecode.size] using hlt)]
  have hi : s'.code.instructions[a]? = some i := hi.2
  rw [Bytecode.shape, Bytecode.shape, List.getElem?_map, List.getElem?_map, hi, hold] at hshape
  exact Option.some.inj hshape

theorem Follows.copies (h : s.Follows s') (hcopies : s.Copies lo hi) (hle : hi ≤ s.code.size) :
    s'.Copies lo hi := by
  refine ⟨hcopies.1, fun a i hlo hhi hi => ?_⟩
  obtain ⟨j, hj, hshape⟩ := h.shape_at hi (Nat.lt_of_lt_of_le hhi hle)
  obtain ⟨source, target, rfl⟩ := hcopies.2 hlo hhi hj
  exact ⟨source, target, Instruction.eq_of_shape hshape (.inr ⟨source, target, rfl⟩)⟩

theorem Follows.exit_at (h : s.Follows s') (hexit : At 0 s.code.instructions a .exit) :
    At 0 s'.code.instructions a .exit := by
  have hlt : a < s.code.size := (List.getElem?_eq_some_iff.1 hexit.2).1
  obtain ⟨i, hi⟩ : ∃ i, s'.code.instructions[a]? = some i :=
    ⟨_, List.getElem?_eq_getElem (Nat.lt_of_lt_of_le hlt h.size_le)⟩
  have hnew : At 0 s'.code.instructions a i := ⟨Nat.zero_le a, hi⟩
  obtain ⟨j, hj, hshape⟩ := h.shape_at hnew hlt
  obtain rfl : .exit = j := Option.some.inj (hexit.2.symm.trans hj.2)
  rwa [Instruction.eq_of_shape hshape (.inl rfl)] at hnew

theorem Follows.locates (h : s.Follows s') (hy : s.Locates y lo hi) : s'.Locates y lo hi := by
  obtain ⟨sp, hsp, hrest⟩ := hy
  exact ⟨sp, h.spans hsp, hrest⟩

/-! ## Exits and children -/

/-- The code of an exit. Locals may be set in front of it. -/
def ExitCode (s : State) (start stop : Nat) : Prop :=
  ∃ last, s.Copies start last ∧ At 0 s.code.instructions last .exit ∧ stop = last + 1

theorem ExitCode.mono (h : s.ExitCode start stop) (hle : s.Follows s') : s'.ExitCode start stop := by
  obtain ⟨last, hcopies, hexit, rfl⟩ := h
  have hlt := hexit.lt.2
  rw [Nat.zero_add] at hlt
  exact ⟨last, hle.copies hcopies (Nat.le_of_lt hlt), hle.exit_at hexit, rfl⟩

/-- Expressions have their code one after the other; for some of them there is none. -/
def Parts (s : State) : List ExprId → Nat → Nat → Prop
  | [], lo, hi => lo = hi
  | c :: cs, lo, hi => ∃ middle, (⟨c, lo, middle⟩ ∈ s.spans ∨ lo = middle) ∧ s.Parts cs middle hi

theorem Parts.mono (h : s.Parts children lo hi) (hle : s.Follows s') : s'.Parts children lo hi := by
  induction children generalizing lo with
  | nil => exact h
  | cons c cs ih =>
    obtain ⟨middle, hc, hrest⟩ := h
    exact ⟨middle, hc.imp_left (hle.spans ·), ih hrest⟩

theorem Parts.snoc {middle : Nat} (h : s.Parts children lo middle) (hy : ⟨y, middle, hi⟩ ∈ s.spans ∨ middle = hi) :
    s.Parts (children ++ [y]) lo hi := by
  induction children generalizing lo with
  | nil =>
    obtain rfl : lo = middle := h
    exact ⟨hi, hy, rfl⟩
  | cons c cs ih =>
    obtain ⟨next, hc, hrest⟩ := h
    exact ⟨next, hc, ih hrest⟩

/-- Where an expression has its code that is met at the latest when children of another one are lowered, with
their code from `start` to `stop`: it was `met` before, or it is one of them and its code is in its place, or
its code is inside that of another one. -/
inductive Placed (s : State) (met children : List ExprId) (start stop : Nat) (y : ExprId) : Prop
  | before : y ∈ met → Placed s met children start stop y
  | inPlace {front rest : List ExprId} {lo hi : Nat} : children = front ++ y :: rest → s.Parts front start lo →
      ⟨y, lo, hi⟩ ∈ s.spans → hi ≤ stop → Placed s met children start stop y
  | inside {z : ExprId} {lo hi : Nat} : z ∈ children → z ≠ y → ⟨z, lo, hi⟩ ∈ s.spans → start ≤ lo → hi ≤ stop →
      s.Locates y lo hi → Placed s met children start stop y

theorem Placed.mono {children' : List ExprId} {stop' : Nat} (h : s.Placed met children start stop y)
    (hle : s.Follows s') (hchildren : children <+: children') (hstop : stop ≤ stop') :
    s'.Placed met children' start stop' y := by
  cases h with
  | before hy => exact .before hy
  | inPlace heq hparts hsp hhi =>
    obtain ⟨more, rfl⟩ := hchildren
    exact .inPlace (by rw [heq, List.append_assoc, List.cons_append]) (hparts.mono hle) (hle.spans hsp)
      (Nat.le_trans hhi hstop)
  | inside hz hne hsp hlo hhi hy =>
    exact .inside (hchildren.subset hz) hne (hle.spans hsp) hlo (Nat.le_trans hhi hstop) (hle.locates hy)

/-- The code of children that were lowered one after the other. -/
structure ChildrenCode (s : State) (met children : List ExprId) (start stop : Nat) : Prop where
  parts : s.Parts children start stop
  placed : ∀ y ∈ children, y ∈ s.failed ∨ s.Placed met children start stop y

theorem ChildrenCode.mono (h : s.ChildrenCode met children start stop) (hle : s.Follows s') :
    s'.ChildrenCode met children start stop where
  parts := h.parts.mono hle
  placed y hy := (h.placed y hy).imp (hle.failed ·) (·.mono hle List.prefix_rfl (Nat.le_refl stop))

end State
end Lowering

/-! ## Entries -/

namespace Tree

open Lowering

variable {t : Tree} {s s' : State} {e : ExprId} {met : List ExprId} {row : String × Nat} {stop : Nat}

/-- The name under which an entry is found: that of its event. -/
def entryName (t : Tree) (e : ExprId) : Checked String := do
  match ← t.nodeKindOf e with
  | some (.event name) => return name
  | _ => return (← t.expr e).name

/-- The code of an entry from the address on that is noted for it. -/
structure EntryCode (t : Tree) (s : State) (e : ExprId) (met : List ExprId) (row : String × Nat) (stop : Nat) :
    Prop where
  name : t.entryName e = .ok row.1
  code : ∃ children last, t.children e = .ok children ∧ s.ChildrenCode met children row.2 last ∧
    ((∃ y ∈ children, t.kind y = .ok .exit) ∧ stop = last ∨
      (∀ y ∈ children, t.kind y ≠ .ok .exit) ∧ At 0 s.code.instructions last .exit ∧ stop = last + 1)

theorem EntryCode.mono (h : t.EntryCode s e met row stop) (hle : s.Follows s') : t.EntryCode s' e met row stop where
  name := h.name
  code := by
    obtain ⟨children, last, hchildren, hcode, hends⟩ := h.code
    refine ⟨children, last, hchildren, hcode.mono hle, hends.imp_right fun ⟨hnone, hexit, hstop⟩ => ?_⟩
    exact ⟨hnone, hle.exit_at hexit, hstop⟩

/-- A row of the table of entries leads to the code of an entry, or to behind the code that sets locals in
front of it. -/
def Entered (t : Tree) (s : State) (row : String × Nat) : Prop :=
  ∃ sp ∈ s.spans, ∃ older, sp.expr :: older <:+ s.visited ∧ t.kind sp.expr = .ok .entry ∧
    s.Copies sp.start row.2 ∧ row.2 ≤ s.code.size ∧ t.EntryCode s sp.expr (sp.expr :: older) row sp.stop

theorem Entered.mono (h : t.Entered s row) (hle : s.Follows s') : t.Entered s' row := by
  obtain ⟨sp, hsp, older, horder, hkind, hcopies, hsize, hcode⟩ := h
  exact ⟨sp, hle.spans hsp, older, horder.trans hle.visited, hkind, hle.copies hcopies hsize,
    Nat.le_trans hsize hle.size_le, hcode.mono hle⟩

end Tree

namespace Lowering

/-! ## The walk -/

namespace Context

variable (cx : Context)

/-- What is emitted: expressions that were not met before have their code there, and exits have theirs. -/
structure Proceeds (s s' : State) : Prop extends s.Follows s' where
  located : ∀ y ∈ s'.visited, y ∈ s.visited ∨ s'.Locates y s.code.size s'.code.size
  exits : ∀ sp ∈ s'.spans, sp ∈ s.spans ∨ (cx.tree.kind sp.expr = .ok .exit → s'.ExitCode sp.start sp.stop)

/-- Rows that are new in the table of entries lead to entries. -/
def Enters (s s' : State) : Prop :=
  ∀ row ∈ s'.code.entries.toList, row ∈ s.code.entries.toList ∨ cx.tree.Entered s' row

variable {cx} {s s' s'' : State}

theorem Proceeds.refl (s : State) : cx.Proceeds s s :=
  { State.Follows.refl s with
    located := fun _ h => .inl h
    exits := fun _ h => .inl h }

theorem Proceeds.trans (h : cx.Proceeds s s') (h' : cx.Proceeds s' s'') : cx.Proceeds s s'' :=
  { h.toFollows.trans h'.toFollows with
    located := fun y hy => by
      rcases h'.located y hy with hy | hy
      · exact (h.located y hy).imp_right fun hy => (h'.locates hy).widen (Nat.le_refl _) h'.size_le
      · exact .inr (hy.widen h.size_le (Nat.le_refl _))
    exits := fun sp hsp => by
      rcases h'.exits sp hsp with hsp | hexit
      · exact (h.exits sp hsp).imp_right fun hexit hkind => (hexit hkind).mono h'.toFollows
      · exact .inr hexit }

theorem Enters.trans (h : cx.Enters s s') (h' : cx.Enters s' s'') (hle : s'.Follows s'') : cx.Enters s s'' := by
  intro row hrow
  rcases h' row hrow with hrow | hentered
  · exact (h row hrow).imp_right (·.mono hle)
  · exact .inr hentered

/-- Where nothing is met, and the code may grow. -/
theorem proceeds_of_eq (hvisited : s'.visited = s.visited) (hspans : s'.spans = s.spans)
    (hfailed : s.failed ⊆ s'.failed) (hshape : s.code.shape <+: s'.code.shape) : cx.Proceeds s s' where
  visited := hvisited ▸ List.suffix_rfl
  failed := hfailed
  spans := hspans ▸ fun _ h => h
  shape := hshape
  located _ hy := .inl (hvisited ▸ hy)
  exits _ hsp := .inl (hspans ▸ hsp)

theorem enters_of_eq (hentries : s'.code.entries = s.code.entries) : cx.Enters s s' := fun _ hrow =>
  .inl (hentries ▸ hrow)

/-- What was lowered first in a place of its own is done: its code is noted. -/
theorem Proceeds.leave {e : ExprId} (h : cx.Proceeds { s with visited := e :: s.visited } s')
    (hexit : cx.tree.kind e = .ok .exit → s'.ExitCode s.code.size s'.code.size) :
    cx.Proceeds s { s' with spans := ⟨e, s.code.size, s'.code.size⟩ :: s'.spans } where
  visited := (List.suffix_cons e s.visited).trans h.visited
  failed := h.failed
  spans _ hsp := List.mem_cons_of_mem _ (h.spans hsp)
  shape := h.shape
  located y hy := by
    rcases h.located y hy with hy | ⟨sp, hsp, hrest⟩
    · rcases List.mem_cons.1 hy with rfl | hy
      · exact .inr (.of_mem List.mem_cons_self)
      · exact .inl hy
    · exact .inr ⟨sp, List.mem_cons_of_mem _ hsp, hrest⟩
  exits sp hsp := by
    rcases List.mem_cons.1 hsp with rfl | hsp
    · exact .inr hexit
    · exact h.exits sp hsp

/-- How an exit and an entry are left. -/
structure Leaves (cx : Context) (e : ExprId) (s s' : State) : Prop where
  exit : cx.tree.kind e = .ok .exit → s'.ExitCode s.code.size s'.code.size
  entry : cx.tree.kind e = .ok .entry → ∀ row ∈ s'.code.entries.toList,
    row ∈ s.code.entries.toList ∨ cx.tree.Entered s' row ∨
      s'.Copies s.code.size row.2 ∧ row.2 ≤ s'.code.size ∧ cx.tree.EntryCode s' e s.visited row s'.code.size

end Context

/-- The walk in emission, with the table of entries. A row for the entry that is being lowered leads to its
code when that is complete. -/
def entering (cx : Context) : Account where
  moves e _ s s' := cx.Proceeds s s' ∧ (cx.tree.kind e = .ok .entry ∨ cx.Enters s s')
  lowers c s s' := cx.Proceeds s s' ∧ cx.Enters s s' ∧ Context.Reached c s s' ∧ s'.Met c
  ended e s s' := cx.Leaves e s s'

namespace Context

variable {cx : Context} {e : ExprId} {s s' s'' : State} {lower : ExprId → Step Unit} {n : Nat}

theorem entering_of_eq (hvisited : s'.visited = s.visited) (hspans : s'.spans = s.spans)
    (hfailed : s.failed ⊆ s'.failed) (hshape : s.code.shape <+: s'.code.shape)
    (hentries : s'.code.entries = s.code.entries) : (entering cx).moves e n s s' :=
  ⟨proceeds_of_eq hvisited hspans hfailed hshape, .inr (enters_of_eq hentries)⟩

/-- Operands and messages are of no concern. -/
theorem entering_self (hvisited : s'.visited = s.visited) (hspans : s'.spans = s.spans)
    (hfailed : s.failed ⊆ s'.failed) (hcode : s'.code = s.code) : (entering cx).moves e n s s' :=
  entering_of_eq hvisited hspans hfailed (hcode ▸ List.prefix_rfl) (by rw [hcode])

theorem entering_trans {m : Nat} (h : (entering cx).moves e m s s') (h' : (entering cx).moves e n s' s'') :
    (entering cx).moves e (m + n) s s'' := by
  refine ⟨h.1.trans h'.1, ?_⟩
  rcases h.2 with hkind | h1
  · exact .inl hkind
  · exact h'.2.imp_right fun h2 => h1.trans h2 h'.1.toFollows

/-- An expression that was lowered for the first time has its code behind what was there. -/
theorem entering_once (h : (entering cx).moves e n { s with visited := e :: s.visited } s')
    (hended : cx.Leaves e { s with visited := e :: s.visited } s') :
    (entering cx).lowers e s { s' with spans := ⟨e, s.code.size, s'.code.size⟩ :: s'.spans } := by
  have hleave := h.1.leave hended.exit
  have hnoted : s'.Follows { s' with spans := ⟨e, s.code.size, s'.code.size⟩ :: s'.spans } :=
    { State.Follows.refl s' with spans := fun _ hsp => List.mem_cons_of_mem _ hsp }
  refine ⟨hleave, fun row hrow => ?_, .inr List.mem_cons_self, .inl (h.1.visited.subset List.mem_cons_self)⟩
  by_cases hkind : cx.tree.kind e = .ok .entry
  · rcases hended.entry hkind row hrow with hold | hentered | ⟨hcopies, hsize, hcode⟩
    · exact .inl hold
    · exact .inr (hentered.mono hnoted)
    · exact .inr ⟨_, List.mem_cons_self, s.visited, h.1.visited, hkind, hcopies, hsize, hcode.mono hnoted⟩
  · exact ((h.2.resolve_left hkind) row hrow).imp_right (·.mono hnoted)

/-! ## Setting locals -/

/-- What is done before an expression is lowered, in emission. -/
structure Readies (s s' : State) : Prop extends Initializes s s' where
  spans : s'.spans = s.spans
  failed : s'.failed = s.failed
  entries : s'.code.entries = s.code.entries

theorem Readies.trans (h : Readies s s') (h' : Readies s' s'') : Readies s s'' :=
  { h.toInitializes.trans h'.toInitializes with
    spans := h'.spans.trans h.spans
    failed := h'.failed.trans h.failed
    entries := h'.entries.trans h.entries }

theorem readies_of_aside (h : s.Aside s') : Readies s s' := by
  rw [h]
  exact ⟨⟨rfl, [], (List.append_nil _).symm, by simp⟩, rfl, rfl, rfl⟩

theorem Readies.follows (h : Readies s s') : s.Follows s' where
  visited := h.visited ▸ List.suffix_rfl
  failed := h.failed ▸ fun _ hy => hy
  spans := h.spans ▸ fun _ hsp => hsp
  shape := by
    obtain ⟨block, hblock, -⟩ := h.code
    rw [Bytecode.shape, Bytecode.shape, hblock, List.map_append]
    exact List.prefix_append _ _

theorem Readies.copies (h : Readies s s') : s'.Copies s.code.size s'.code.size := by
  obtain ⟨block, hblock, hcopies⟩ := h.code
  refine ⟨h.follows.size_le, fun a i hlo hhi hi => ?_⟩
  have hi : s'.code.instructions[a]? = some i := hi.2
  rw [hblock, List.getElem?_append_right hlo] at hi
  exact hcopies i (List.mem_of_getElem? hi)

theorem ends_readies_forM {α : Type} {l : List α} {f : α → Step PUnit}
    (hf : ∀ r ∈ l, ∀ s, Step.Ends (fun _ => True) s (f r) fun _ s' => Readies s s') (s : State) :
    Step.Ends (fun _ => True) s (l.forM f) fun _ s' => Readies s s' := by
  refine Step.ends_forM (fun _ s' => Readies s s') (readies_of_aside rfl) ?_
  rintro done r rest rfl s1 h1
  exact (hf r (by simp) s1).mono fun _ _ h2 => h1.trans h2

theorem ends_readies_emitInitializers (hpass : cx.pass = .emit) (site : CallStack) (s : State) :
    Step.Ends (fun _ => True) s (cx.emitInitializers site) fun _ s' => Readies s s' := by
  rw [emitInitializers_eq]
  refine Step.ends_lift_bind fun r _ => ?_
  cases r with
  | none => exact readies_of_aside rfl
  | some function =>
    refine ends_readies_forM (fun v _ s => ?_) s
    unfold emitInitializer
    refine Step.ends_lift_bind fun key _ => ?_
    refine Step.ends_get_bind.2 ?_
    dsimp only
    split
    · next source target _ _ =>
      unfold Step.Ends
      rw [emitUnder_apply hpass]
      exact ⟨⟨rfl, [.copy source target], rfl, by simp⟩, rfl, rfl, rfl⟩
    · exact readies_of_aside rfl

theorem ends_readies_enter (hpass : cx.pass = .emit) (stack : CallStack) (s : State) :
    Step.Ends (fun _ => True) s (cx.enter stack) fun _ s' => Readies s s' := by
  have hsite (site : CallStack) (s : State) :
      Step.Ends (fun _ => True) s (cx.initializeSite site) fun _ s' => Readies s s' := by
    unfold initializeSite
    refine Step.ends_get_bind.2 ?_
    rw [hpass]
    dsimp only
    split
    · exact readies_of_aside rfl
    · have hmark : Readies s { s with initialized := site :: s.initialized } := readies_of_aside rfl
      refine Step.ends_bind.2 (Step.ends_set.2 ?_)
      split
      · exact hmark
      · refine Step.ends_bind.2 ((ends_readies_emitInitializers hpass site _).mono fun _ s1 h1 => ?_)
        exact hmark.trans (h1.trans (readies_of_aside rfl))
  refine Step.ends_bind.2 (Step.ends_get_bind.2 (Step.ends_lift_bind fun entered _ => ?_))
  refine Step.ends_set.2 (Step.ends_bind.2 ?_)
  refine (ends_readies_forM (fun site _ => hsite site) _).mono fun _ s1 h1 => ?_
  have hframes : Readies s { s with frames := s.frames.take (commonFrames s.frames stack) ++ entered } :=
    readies_of_aside rfl
  exact (hframes.trans h1).trans (readies_of_aside rfl)

/-! ## Lowering entries and exits -/

/-- The children of an expression, one after the other. -/
theorem ends_lowerChildren (hlower : (entering cx).Walks lower) (s : State) :
    Step.Ends (fun _ => True) s (cx.lowerChildren lower e) fun _ s' =>
      cx.Proceeds s s' ∧ cx.Enters s s' ∧ ∀ children, cx.tree.children e = .ok children →
        s'.ChildrenCode s.visited children s.code.size s'.code.size := by
  refine Step.ends_lift_bind fun children hchildren => ?_
  -- Whatever was met since the first child began has its place.
  have hwalk := Step.ends_forM (F := fun _ => True) (s := s) (l := children) (f := lower)
    (fun done s' => cx.Proceeds s s' ∧ cx.Enters s s' ∧ s'.Parts done s.code.size s'.code.size ∧
      (∀ y ∈ s'.visited, s'.Placed s.visited done s.code.size s'.code.size y) ∧
      ∀ y ∈ done, s'.Met y)
    ⟨.refl s, fun _ h => .inl h, rfl, fun _ h => .before h, by simp⟩ ?_
  · refine hwalk.mono fun _ s' ⟨hproceeds, henters, hparts, hplaced, hmet⟩ => ⟨hproceeds, henters, ?_⟩
    intro children' hchildren'
    cases hchildren.symm.trans hchildren'
    exact ⟨hparts, fun y hy => (hmet y hy).symm.imp_right (hplaced y)⟩
  · rintro done c rest - s1 ⟨hproceeds, henters, hparts, hplaced, hmet⟩
    refine (hlower c trivial s1 trivial).mono ?_
    rintro _ s2 ⟨hproceeds2, henters2, hreached, hc⟩
    have hle := hproceeds2.toFollows
    have hdone : done <+: done ++ [c] := List.prefix_append _ _
    have hmet2 : ∀ y ∈ done ++ [c], s2.Met y := by
      intro y hy
      rcases List.mem_append.1 hy with hy | hy
      · exact (hmet y hy).imp (hle.visited.subset ·) (hle.failed ·)
      · rw [List.mem_singleton.1 hy]
        exact hc
    refine ⟨hproceeds.trans hproceeds2, henters.trans henters2 hle, ?_⟩
    rcases hreached with ⟨rfl, -⟩ | hsp
    · exact ⟨hparts.snoc (.inr rfl), fun y hy => (hplaced y hy).mono (.refl s2) hdone (Nat.le_refl _), hmet2⟩
    · refine ⟨(hparts.mono hle).snoc (.inl hsp), fun y hy => ?_, hmet2⟩
      rcases hproceeds2.located y hy with hold | hnew
      · exact (hplaced y hold).mono hle hdone hle.size_le
      by_cases hyc : y = c
      · subst hyc
        exact .inPlace rfl (hparts.mono hle) hsp (Nat.le_refl _)
      · exact .inside (by simp) (Ne.symm hyc) hsp hproceeds.size_le (Nat.le_refl _) hnew

section Pushes

variable {i : Instruction} {openBlocks : Nat} (h : Pushes s s' i openBlocks)

include h

theorem Pushes.follows : s.Follows s' := by
  obtain ⟨recorded, rfl⟩ := h.eq
  refine { State.Follows.refl s with shape := ?_ }
  rw [Bytecode.shape_push]
  exact List.prefix_append _ _

theorem Pushes.at_size : At 0 s'.code.instructions s.code.size i := by
  obtain ⟨recorded, rfl⟩ := h.eq
  simp [At, Bytecode.push, Bytecode.size]

theorem Pushes.entries_eq : s'.code.entries = s.code.entries := by
  obtain ⟨recorded, rfl⟩ := h.eq
  rfl

end Pushes

/-- Rows that are new lead to entries below `e`, or to the code of `e` that starts at `start`. -/
def EntersAt (cx : Context) (e : ExprId) (start : Nat) (s s' : State) : Prop :=
  ∀ row ∈ s'.code.entries.toList, row ∈ s.code.entries.toList ∨ cx.tree.Entered s' row ∨
    row.2 = start ∧ cx.tree.EntryCode s' e s.visited row s'.code.size

/-- An entry is noted where the code of its children starts. -/
theorem ends_lowerEntry (hpass : cx.pass = .emit) (hlower : (entering cx).Walks lower) (s : State) :
    Step.Ends (fun _ => True) s (cx.lowerEntry lower e) fun _ s' =>
      s.Follows s' ∧ cx.EntersAt e s.code.size s s' := by
  unfold lowerEntry
  refine Step.ends_lift_bind fun x hx => ?_
  have hchildren := Tree.children_eq (Checked.get_eq_ok.1 hx)
  rw [hpass]
  refine Step.ends_lift_bind fun node hnode => ?_
  refine Step.ends_bind.2 (Step.ends_modify.2 (Step.ends_bind.2 ?_))
  refine (ends_lowerChildren hlower _).mono fun _ s2 ⟨hproceeds, henters, hcode⟩ => ?_
  have hle : s.Follows s2 := { hproceeds.toFollows with }
  -- The row that was noted is the only one that leads to the code of the children.
  have hrows {s3 : State} (hle3 : s2.Follows s3) (hentries : s3.code.entries = s2.code.entries)
      (hends : (∃ y ∈ x.children, cx.tree.kind y = .ok .exit) ∧ s3.code.size = s2.code.size ∨
        (∀ y ∈ x.children, cx.tree.kind y ≠ .ok .exit) ∧ At 0 s3.code.instructions s2.code.size .exit ∧
          s3.code.size = s2.code.size + 1) : cx.EntersAt e s.code.size s s3 := by
    intro row hrow
    rw [hentries] at hrow
    rcases henters row hrow with hrow | hentered
    · rcases SortedMap.mem_insert hrow with rfl | hold
      · refine .inr (.inr ⟨rfl, ?_, _, _, hchildren, (hcode _ hchildren).mono hle3, hends⟩)
        unfold Tree.entryName
        rw [hnode, hx, Checked.ok_bind]
        cases node with
        | none => rfl
        | some kind => cases kind <;> rfl
      · exact .inl hold
    · exact .inr (.inl (hentered.mono hle3))
  refine Step.ends_lift_bind fun r hfind => ?_
  have hkind {c : ExprId} {b : Bool} (hc : (do return decide ((← cx.tree.kind c) = .exit)) = Except.ok b) :
      cx.tree.kind c = .ok .exit ↔ b = true := by
    obtain ⟨kind, hkind, hb⟩ := Checked.bind_eq_ok.1 hc
    rw [hkind, ← Except.ok.inj hb]
    simp
  cases r with
  | some y =>
    obtain ⟨hy, hexit⟩ := Checked.mem_of_findM? hfind
    exact ⟨hle, hrows (.refl s2) rfl (.inl ⟨⟨y, hy, (hkind hexit).2 rfl⟩, rfl⟩)⟩
  | none =>
    refine (ends_emit hpass rfl).mono fun _ s3 hpushes => ⟨hle.trans hpushes.follows, ?_⟩
    refine hrows hpushes.follows hpushes.entries_eq (.inr ⟨fun y hy hexit => ?_, hpushes.at_size, hpushes.size⟩)
    cases (hkind (Checked.false_of_findM? hfind y hy)).1 hexit

/-- In front of what is lowered for an expression locals may be set. -/
theorem ends_lowerUnder {Q : State → Prop} (hpass : cx.pass = .emit)
    (hexpr : ∀ s1, Readies s s1 → Attempt.Ends (fun _ => True) s1 (cx.lowerExpr lower e)
      (fun _ s2 => ∀ stack, Q { s2 with callStack := stack }) fun _ _ => False) :
    Step.Ends (fun _ => True) s (cx.lowerUnder lower e) fun _ s' => Q s' := by
  have hends (stack : CallStack) : Step.Ends (fun _ => True) s (cx.enter stack >>= fun _ =>
      (cx.lowerExpr lower e).run >>= Coupling.settle e s.callStack) fun _ s' => Q s' := by
    refine Step.ends_bind.2 ((ends_readies_enter hpass stack s).mono fun _ s1 h1 => ?_)
    refine Step.ends_bind.2 (Step.Ends.mono (hexpr s1 h1) fun r s2 h2 => ?_)
    cases r with
    | error error => exact h2.elim
    | ok _ => exact h2 s.callStack
  unfold Step.Ends
  rw [Coupling.lowerUnder_apply]
  cases cx.tree.expr e with
  | error f => trivial
  | ok x => exact hends _

theorem ends_lowerExit (hpass : cx.pass = .emit) (hkind : cx.tree.kind e = .ok .exit) (s : State) :
    Attempt.Ends (fun _ => True) s (cx.lowerExpr lower e) (fun _ s' => Pushes s s' .exit s.openBlocks)
      fun _ _ => False := by
  unfold lowerExpr
  rw [hkind, hpass]
  exact Attempt.ends_step.2 (ends_emit hpass rfl)

/-- Exits and entries are left as they should. -/
theorem ends_leaves (hpass : cx.pass = .emit) (hlower : (entering cx).Walks lower) (s : State) :
    Step.Ends (fun _ => True) s (cx.lowerUnder lower e) fun _ s' => cx.Leaves e s s' := by
  by_cases hexit : cx.tree.kind e = .ok .exit
  · refine ends_lowerUnder hpass fun s1 hready => ?_
    refine (ends_lowerExit hpass hexit s1).mono (fun _ s2 hpushes stack => ?_) fun _ _ h => h
    refine ⟨fun _ => ?_, fun hentry => ?_⟩
    · exact ⟨s1.code.size, hpushes.follows.copies hready.copies (Nat.le_refl _), hpushes.at_size, hpushes.size⟩
    · rw [hexit] at hentry
      cases hentry
  by_cases hentry : cx.tree.kind e = .ok .entry
  · refine ends_lowerUnder hpass fun s1 hready => ?_
    unfold lowerExpr
    rw [hentry]
    refine Attempt.ends_step.2 ((ends_lowerEntry hpass hlower s1).mono fun _ s2 ⟨hle, hrows⟩ stack => ?_)
    refine ⟨fun h => absurd h hexit, fun _ row hrow => ?_⟩
    have hback : s2.Follows { s2 with callStack := stack } := { State.Follows.refl s2 with }
    rcases hrows row hrow with hold | hentered | ⟨hstart, hcode⟩
    · exact .inl (hready.entries ▸ hold)
    · exact .inr (.inl (hentered.mono hback))
    · refine .inr (.inr ⟨?_, hstart ▸ hle.size_le, ?_⟩)
      · rw [hstart]
        exact hle.copies hready.copies (Nat.le_refl _)
      · rw [← hready.visited]
        exact hcode.mono hback
  · exact Step.ends_true.mono fun _ _ _ => ⟨fun h => absurd h hexit, fun h => absurd h hentry⟩

end Context

theorem entering_lawful {cx : Context} (hpass : cx.pass = .emit) : (entering cx).Lawful cx := by
  have hself {e : ExprId} {s s' : State} (hvisited : s'.visited = s.visited) (hspans : s'.spans = s.spans)
      (hfailed : s.failed ⊆ s'.failed) (hcode : s'.code = s.code) : (entering cx).moves e 0 s s' :=
    Context.entering_self hvisited hspans hfailed hcode
  have hnone {s : State} : s.failed ⊆ s.failed := fun _ h => h
  have hruled : (entering cx).Ruled cx :=
    { refl := fun _ _ => hself rfl rfl hnone rfl
      trans := Context.entering_trans
      ends := fun {_ s _} _ _ hlower => Context.ends_leaves hpass hlower s
      once := fun _ _ _ _ h hended => Context.entering_once h hended
      skip := fun {_ s} _ _ hmet => ⟨.refl s, fun _ h => .inl h, .inl ⟨rfl, hmet⟩, hmet.symm⟩
      of_lowers := fun h => ⟨h.1, .inr h.2.1⟩
      aside := fun hs => by
        rw [hs]
        exact hself rfl rfl hnone rfl
      error := fun _ _ _ _ _ => hself rfl rfl hnone rfl
      warning := fun _ _ _ _ => hself rfl rfl hnone rfl
      failed := fun _ _ => hself rfl rfl (fun _ h => List.mem_cons_of_mem _ h) rfl
      push := fun stack _ _ => by
        refine Context.entering_of_eq rfl rfl hnone ?_ rfl
        rw [Bytecode.shape_push]
        exact List.prefix_append _ _
      land := fun _ hcode => by
        refine Context.entering_of_eq rfl rfl hnone ?_ ?_
        · exact (Bytecode.shape_setOffset hcode).symm ▸ List.prefix_rfl
        · obtain ⟨_, _, -, -, rfl⟩ := Bytecode.setOffset_eq_ok hcode
          rfl }
  have hstores : (entering cx).Stores :=
    { storage := fun _ _ => hself rfl rfl hnone rfl
      remember := fun _ h => Context.entering_trans h (hself rfl rfl hnone rfl)
      publish := fun _ _ _ _ => hself rfl rfl hnone rfl
      mirror := fun _ _ _ => hself rfl rfl hnone rfl }
  refine hruled.lawful hstores fun he hkind hlower => hruled.pays_lowerEntry he hlower (fun s name => ?_) hkind
  exact ⟨Context.proceeds_of_eq rfl rfl hnone List.prefix_rfl, .inl hkind⟩

/-- What the table of entries says after a pass that started without code. -/
theorem Context.entered_of_lowerRoots {cx : Context} (hpass : cx.pass = .emit) {s s' : State} (hcode : s.code = {})
    (hrun : cx.lowerRoots s = .ok ((), s')) :
    (∀ row ∈ s'.code.entries.toList, cx.tree.Entered s' row) ∧
      ∀ sp ∈ s'.spans, cx.tree.kind sp.expr = .ok .exit → s'.ExitCode sp.start sp.stop := by
  -- There is no entry of that number.
  have hmissing : cx.tree.kind cx.tree.exprs.length ≠ .ok .entry := by
    intro hkind
    obtain ⟨x, hx, -⟩ := Checked.bind_eq_ok.1 hkind
    exact Nat.lt_irrefl _ (Tree.lt_of_expr? (Tree.expr_eq_ok.1 hx))
  obtain ⟨hproceeds, hentry⟩ :=
    (entering_lawful hpass).moves_of_lowerRoots (fun _ _ => trivial) trivial hrun cx.tree.exprs.length
  constructor
  · intro row hrow
    refine ((hentry.resolve_left hmissing) row hrow).resolve_left fun hold => ?_
    have hold : row ∈ s.code.entries.toList := hold
    rw [hcode] at hold
    cases hold
  · intro sp hsp
    exact (hproceeds.exits sp hsp).resolve_left fun hold => nomatch hold

end Lowering
end NodeGraph
