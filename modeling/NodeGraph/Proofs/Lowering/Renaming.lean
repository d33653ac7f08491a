import NodeGraph.Proofs.Lowering.Alignment
import NodeGraph.Proofs.Lowering.CoupledWalk

/-!
# Lowering with other storage

Two sharings of the same pins lead to the same walk and, up to a renaming of registers and copies that are
idle after it, to the same code. This is a coupling that is not strict: it only speaks of walks that come
to an end without errors, and it is stated with the states in which they end.
-/
namespace NodeGraph.Lowering

/-! ## Places of operands -/

namespace State

variable {s : State} {externals : List ExternalVariable} {base o o' : Operand} {segments : String}

theorem place_of_member (h : s.storage.Member base segments o) :
    (s.program externals).place o = ⟨base.cell, some segments⟩ := by
  obtain ⟨table, k, ht, hk, rfl⟩ := h
  have ht : (s.program externals).memory? base.memory = some table := by
    rw [← ht]
    cases base.memory <;> rfl
  obtain ⟨hlt, hpath, -⟩ := List.findIdx?_eq_some_iff_getElem.1 hk
  have hpath : table.propertyPaths[k]? = some ⟨base.index, segments⟩ := by
    rw [List.getElem?_eq_getElem hlt]
    simpa using hpath
  unfold Program.place
  rw [ht]
  dsimp only [Option.bind_eq_bind, Option.bind_some]
  rw [hpath]
  rfl

end State

/-- A whole register, or a member of one by the number that its path was given. -/
def Storage.Canonical (s : Storage) (o : Operand) : Prop :=
  o.propertyPath = none ∨ ∃ base segments, s.Member base segments o

/-- A place has one operand. -/
theorem State.eq_of_place_eq {s : State} {externals : List ExternalVariable} {o o' : Operand}
    (h : s.storage.Canonical o) (h' : s.storage.Canonical o')
    (hplace : (s.program externals).place o = (s.program externals).place o') : o = o' := by
  rcases h with h | ⟨base, segments, h⟩
  · rw [Program.place_of_whole h] at hplace
    rcases h' with h' | ⟨base', segments', h'⟩
    · rw [Program.place_of_whole h'] at hplace
      obtain ⟨hcell, -⟩ := Place.mk.inj hplace
      obtain ⟨hmemory, hindex⟩ := Cell.mk.inj hcell
      obtain ⟨_, _, _⟩ := o
      obtain ⟨_, _, _⟩ := o'
      simp_all
    · rw [place_of_member h'] at hplace
      cases (Place.mk.inj hplace).2
  · rw [place_of_member h] at hplace
    rcases h' with h' | ⟨base', segments', h'⟩
    · rw [Program.place_of_whole h'] at hplace
      cases (Place.mk.inj hplace).2
    · rw [place_of_member h'] at hplace
      obtain ⟨hcell, hsegments⟩ := Place.mk.inj hplace
      cases hsegments
      obtain ⟨hmemory, hindex⟩ := Cell.mk.inj hcell
      obtain ⟨table, k, ht, hk, rfl⟩ := h
      obtain ⟨table', k', ht', hk', rfl⟩ := h'
      rw [← hmemory, ht] at ht'
      cases ht'
      rw [← hindex, hk] at hk'
      cases hk'
      obtain ⟨_, _, _⟩ := base
      obtain ⟨_, _, _⟩ := base'
      simp_all

/-! ## The coupling -/

/-- The same context with other sharing. -/
def Context.sharedBy (cx : Context) (sharing : Sharing) : Context := { cx with sharing }

/-- A renaming keeps external variables, takes a register to the one of the same key, and the register of
each pin that the tree mentions to that pin's register. -/
structure Context.Renames (cx : Context) (sharing : Sharing) (a b : Storage) (ρ : Cell → Cell) : Prop where
  external : ∀ index, ρ ⟨.external, index⟩ = ⟨.external, index⟩
  key : ∀ {key o o'}, a.keyed.lookup key = some o → b.keyed.lookup key = some o' → ρ o.cell = o'.cell
  pin : ∀ {p id root site site' o o'}, cx.tree.Mentions p → p.pin? = some id →
    cx.tree.graph.rootPin id = .ok root → cx.rootSite (p.withPin root) = .ok (some site) →
    (cx.sharedBy sharing).rootSite (p.withPin root) = .ok (some site') → site.Holds a o → site'.Holds b o' →
    ρ o.cell = o'.cell

/-- The states in which two walks end, and how their registers are renamed. -/
structure Finish where
  left : State
  right : State
  externals : List ExternalVariable
  rename : Cell → Cell
  /-- The call sites that were prepared before code is emitted. -/
  sites : List CallStack
  /-- The expressions that were met before code is emitted. -/
  known : ExprId → Prop

namespace Finish

variable (fin : Finish)

def program : Program := fin.left.program fin.externals

def program' : Program := fin.right.program fin.externals

/-- The address in the shorter code. -/
def rank : Nat → Nat := fin.program.rank fin.rename

/-- Operands of the same place. -/
def Twin (o o' : Operand) : Prop :=
  (fin.program.place o).rename fin.rename = fin.program'.place o' ∧ fin.right.storage.Canonical o'

/-- The walks may end as given, so far without errors. -/
structure Reaches (u s : State) : Prop where
  storage : u.storage.Extends fin.left.storage
  storage' : s.storage.Extends fin.right.storage
  failed : u.failed = []
  failed' : s.failed = []
  errors : u.report.errors = 0
  errors' : s.report.errors = 0
  begins : fin.program.Begins u.code

/-- What the two walks have noted is the same, and what they have found and emitted is so after the
renaming. -/
structure Renamed (cx cx' : Context) (u s : State) : Prop where
  failed : u.failed = s.failed
  visited : u.visited = s.visited
  callStack : u.callStack = s.callStack
  frames : u.frames = s.frames
  prepared : u.prepared = s.prepared
  initialized : u.initialized = s.initialized
  openBlocks : u.openBlocks = s.openBlocks
  operands : ∀ e, Option.Rel fin.Twin (u.operands.lookup e) (s.operands.lookup e)
  code : fin.program.Aligned fin.program' fin.rename u.code s.code
  sites : cx.pass = .emit → ∀ site ∈ u.callStack.sites, site ∈ fin.sites
  kept : ∀ site ∈ fin.sites, cx.LocalsKept u.storage site ∧ cx'.LocalsKept s.storage site

end Finish

namespace Context

variable (cx : Context) (sharing : Sharing) (fin : Finish) {i j : Instruction} {stack : CallStack} {a a' : Nat}
  {q q' : Operand} {function key : String} {p : Proxy}

def renameCoupling : Coupling cx (cx.sharedBy sharing) where
  rel := fin.Renamed cx (cx.sharedBy sharing)
  good := fin.Reaches
  strict := False
  twin := fin.Twin
  addr a a' := a' = fin.rank a
  jump a a' := a' = fin.rank a ∧ ∃ i, fin.program.bytecode.instructions[a]? = some i ∧ i.forward?.isSome
  known := fin.known

/-- What has to be known of the ends for the walks to be coupled. -/
structure Couples : Prop where
  unrecorded : cx.options.recordCallStacks = false
  renames : cx.Renames sharing fin.left.storage fin.right.storage fin.rename
  named : ∀ {key o}, fin.left.storage.keyed.lookup key = some o → fin.left.storage.Named key o
  named' : ∀ {key o}, fin.right.storage.keyed.lookup key = some o → fin.right.storage.Named key o
  child : ∀ {e x c}, fin.known e → cx.tree.expr? e = some x → x.kind ≠ .exit → c ∈ x.children → fin.known c
  sites : cx.pass = .emit → ∀ {e x p}, fin.known e → cx.tree.expr? e = some x → x.proxy = some p →
    ∀ site ∈ p.callStack.sites, site ∈ fin.sites

variable {cx sharing fin} {u s : State} {o o' : Operand} {site : Site}

instance : (cx.renameCoupling sharing fin).Coherent where
  good_of_strict h := h.elim
  good_of_extends hu hs hgood :=
    { storage := hu.storage.trans hgood.storage
      storage' := hs.storage.trans hgood.storage'
      failed := List.subset_nil.1 (hgood.failed ▸ hu.failed)
      failed' := List.subset_nil.1 (hgood.failed' ▸ hs.failed)
      errors := Nat.le_zero.1 (hgood.errors ▸ hu.errors)
      errors' := Nat.le_zero.1 (hgood.errors' ▸ hs.errors)
      begins := hu.shape.trans hgood.begins }

/-! ## Operands -/

theorem twin_of_whole (ho : o.propertyPath = none) (ho' : o'.propertyPath = none)
    (hcell : fin.rename o.cell = o'.cell) : fin.Twin o o' := by
  refine ⟨?_, .inl ho'⟩
  unfold Finish.program Finish.program'
  rw [Program.place_of_whole ho, Program.place_of_whole ho', Place.rename, hcell]

section Operands

variable (h : cx.Couples sharing fin)

include h

theorem Couples.whole_of_holds (ho : site.Holds fin.left.storage o) : o.propertyPath = none := by
  cases site with
  | register key => exact (h.named ho).1
  | external index => cases ho; rfl

theorem Couples.whole_of_holds' (ho : site.Holds fin.right.storage o) : o.propertyPath = none := by
  cases site with
  | register key => exact (h.named' ho).1
  | external index => cases ho; rfl

/-- A site is the same on both sides. -/
theorem Couples.twin_of_holds (ho : site.Holds fin.left.storage o) (ho' : site.Holds fin.right.storage o') :
    fin.Twin o o' := by
  refine twin_of_whole (h.whole_of_holds ho) (h.whole_of_holds' ho') ?_
  cases site with
  | register key => exact h.renames.key ho ho'
  | external index =>
    cases ho
    cases ho'
    exact h.renames.external index

/-- A pin that the tree mentions is where the renaming says. -/
theorem Couples.twin_of_located (hp : cx.tree.Mentions p) (ho : cx.Located fin.left.storage p o)
    (ho' : (cx.sharedBy sharing).Located fin.right.storage p o') : fin.Twin o o' := by
  obtain ⟨id, root, segments, hid, hroot, hsegments, site, base, hsite, hbase, ho⟩ := ho
  obtain ⟨id', root', segments', hid', hroot', hsegments', site', base', hsite', hbase', ho'⟩ := ho'
  cases hid.symm.trans hid'
  cases hroot.symm.trans hroot'
  cases hsegments.symm.trans hsegments'
  have hcell := h.renames.pin hp hid hroot hsite hsite' hbase hbase'
  split at ho
  · next hempty =>
    rw [if_pos hempty] at ho'
    cases ho
    cases ho'
    exact twin_of_whole (h.whole_of_holds hbase) (h.whole_of_holds' hbase') hcell
  · next hmember =>
    rw [if_neg hmember] at ho'
    refine ⟨?_, .inr ⟨base', segments, ho'⟩⟩
    unfold Finish.program Finish.program'
    rw [State.place_of_member ho, State.place_of_member ho', Place.rename, hcell]

end Operands

theorem renamed_stored {u' s' : State} (h : fin.Renamed cx (cx.sharedBy sharing) u s) (hu : Stored u u')
    (hs : Stored s s') : fin.Renamed cx (cx.sharedBy sharing) u' s' := by
  rw [hu.2, hs.2]
  exact { h with kept := fun site hsite => ⟨(h.kept site hsite).1.mono hu.1, (h.kept site hsite).2.mono hs.1⟩ }

/-- Finding operands leads to what is known of them at the end. -/
theorem renameAttempts_of_finds {α : Type} {a a' : Attempt α} {Q Q' : Storage → α → Prop} {R : α → α → Prop}
    (h : cx.Finds a Q) (h' : (cx.sharedBy sharing).Finds a' Q') (hR : ∀ {b b' x x'}, b.Extends fin.left.storage →
      b'.Extends fin.right.storage → Q b x → Q' b' x' → R x x') :
    (cx.renameCoupling sharing fin).Attempts a a' R := by
  intro u s hrel
  refine Coupling.meets_of_not_strict id fun r u1 r' s1 hrun hrun' hgood => ?_
  have hu := Checked.Ends.of_ok (h.found u) hrun
  have hs := Checked.Ends.of_ok (h'.found s) hrun'
  cases r with
  | error e => exact Coupling.agrees_of_not_strict id (.inl ⟨e, rfl⟩) _ _
  | ok x => cases r' with
    | error e => exact Coupling.agrees_of_not_strict id (.inr ⟨e, rfl⟩) _ _
    | ok x' =>
      have hstored := Checked.Ends.of_ok (stored_of_finds h u) hrun
      have hstored' := Checked.Ends.of_ok (stored_of_finds h' s) hrun'
      exact ⟨renamed_stored hrel hstored hstored', hR hgood.storage hgood.storage' hu.2 hs.2⟩

section Finding

variable (h : cx.Couples sharing fin) {a a' : Attempt Operand}

include h

/-- What is found at the same site. -/
theorem Couples.attempts_of_site {site : Checked (Option Site)}
    (ha : cx.Finds a fun s o => ∃ x, site = .ok (some x) ∧ x.Holds s o)
    (ha' : (cx.sharedBy sharing).Finds a' fun s o => ∃ x, site = .ok (some x) ∧ x.Holds s o) :
    (cx.renameCoupling sharing fin).Attempts a a' fin.Twin := by
  refine renameAttempts_of_finds ha ha' ?_
  rintro b b' o o' hb hb' ⟨x, hx, ho⟩ ⟨x', hx', ho'⟩
  cases hx.symm.trans hx'
  exact h.twin_of_holds (ho.mono hb) (ho'.mono hb')

theorem Couples.attempts_of_key (ha : cx.Finds a fun s o => s.keyed.lookup key = some o)
    (ha' : (cx.sharedBy sharing).Finds a' fun s o => s.keyed.lookup key = some o) :
    (cx.renameCoupling sharing fin).Attempts a a' fin.Twin :=
  renameAttempts_of_finds ha ha' fun hb hb' ho ho' =>
    have ho : (Site.register key).Holds fin.left.storage _ := hb.keyed ho
    h.twin_of_holds ho (hb'.keyed ho')

theorem Couples.attempts_value (hp : cx.tree.Mentions p) :
    (cx.renameCoupling sharing fin).Attempts (cx.valueOperand p) ((cx.sharedBy sharing).valueOperand p)
      fin.Twin :=
  renameAttempts_of_finds finds_valueOperand finds_valueOperand fun hb hb' ho ho' =>
    h.twin_of_located hp (ho.mono hb) (ho'.mono hb')

end Finding

/-! ## Emission -/

theorem emitUnder_eq_ok {x : Unit} {u1 : State} (h : cx.emitUnder stack i u = .ok (x, u1)) :
    ∃ record openBlocks, blocksAfter u.openBlocks i = .ok openBlocks ∧
      u1 = { u with code := u.code.push i record, openBlocks := openBlocks } := by
  cases hpass : cx.pass with
  | setup => rw [emitUnder_setup hpass] at h; cases h
  | emit =>
    rw [emitUnder_apply hpass] at h
    obtain ⟨openBlocks, hblocks, h⟩ := Checked.bind_eq_ok.1 h
    cases h
    exact ⟨_, openBlocks, hblocks, rfl⟩

theorem blocksAfter_eq {twin : Operand → Operand → Prop} {φ : Nat → Nat} (h : i.Follows twin φ a j)
    (openBlocks : Nat) : blocksAfter openBlocks i = blocksAfter openBlocks j := by
  cases h <;> rfl

variable (fin) in
/-- Instructions at the next address that do the same after the renaming. -/
def Pairs (u : State) (i j : Instruction) : Prop :=
  fin.program.isIdle fin.rename i = false ∧
    i.Follows (fun o o' => (fin.program.place o).rename fin.rename = fin.program'.place o') fin.rank u.code.size j

/-- Both walks emit an instruction. -/
theorem renameMeets_emitUnder (hrel : fin.Renamed cx (cx.sharedBy sharing) u s)
    (h : fin.Reaches u s → Pairs fin u i j) :
    (cx.renameCoupling sharing fin).Meets (fun _ u' _ s' => fin.Renamed cx (cx.sharedBy sharing) u' s')
      (cx.emitUnder stack i u) ((cx.sharedBy sharing).emitUnder stack j s) := by
  refine Coupling.meets_of_not_strict id fun _ u1 _ s1 hrun hrun' hgood => ?_
  have hu := Checked.Ends.of_ok (keeps_emitUnder stack i u) hrun
  have hs := Checked.Ends.of_ok (keeps_emitUnder stack j s) hrun'
  obtain ⟨hidle, hfollows⟩ := h (Coupling.Coherent.good_of_extends (C := cx.renameCoupling sharing fin) hu hs hgood)
  obtain ⟨record, openBlocks, hblocks, rfl⟩ := emitUnder_eq_ok hrun
  obtain ⟨record', openBlocks', hblocks', rfl⟩ := emitUnder_eq_ok hrun'
  rw [blocksAfter_eq hfollows, hrel.openBlocks, hblocks'] at hblocks
  cases hblocks
  exact { hrel with openBlocks := rfl, code := hrel.code.push hgood.begins hidle hfollows }

theorem renameSteps_emit (h : ∀ u s, fin.Reaches u s → Pairs fin u i j) :
    (cx.renameCoupling sharing fin).Steps (cx.emit i) ((cx.sharedBy sharing).emit j) fun _ _ => True := by
  intro u s hrel
  show Coupling.Meets _ _ (cx.emitUnder u.callStack i u) ((cx.sharedBy sharing).emitUnder s.callStack j s)
  rw [← hrel.callStack]
  exact (renameMeets_emitUnder hrel (h u s)).mono fun _ _ _ _ h => ⟨h, trivial⟩

theorem pairs_of_like (h : i.Like fin.Twin j) (u : State) : Pairs fin u i j := by
  refine ⟨by cases h <;> rfl, ?_⟩
  have hall {l l' : List Operand} (h : List.Forall₂ fin.Twin l l') : List.Forall₂ (fun o o' =>
      (fin.program.place o).rename fin.rename = fin.program'.place o') l l' := h.imp fun _ _ h => h.1
  cases h with
  | execute h => exact .execute (hall h)
  | zero h => exact .zero h.1
  | increment h => exact .increment h.1
  | equals hl hr ho => exact .equals hl.1 hr.1 ho.1
  | jumpForward => exact .jumpForward rfl
  | jumpIf h => exact .jumpIf h.1 rfl
  | beginBlock hc hi => exact .beginBlock hc.1 hi.1
  | endBlock => exact .endBlock
  | array h => exact .array (hall h)
  | exit => exact .exit

/-- A copy is idle if its ends have become the same operand. -/
theorem isIdle_copy (ho : fin.Twin o o') (hq : fin.Twin q q') :
    fin.program.isIdle fin.rename (.copy o q) = decide (o' = q') := by
  show decide ((fin.program.place o).rename fin.rename = (fin.program.place q).rename fin.rename) = _
  rw [ho.1, hq.1]
  exact decide_eq_decide.2 ⟨State.eq_of_place_eq ho.2 hq.2, congrArg _⟩

/-- A copy between different operands is emitted by both walks, any other by one at most. -/
theorem renameSteps_copyValue (ho : fin.Twin o o') (hq : fin.Twin q q') :
    (cx.renameCoupling sharing fin).Steps (cx.copyValue o q) ((cx.sharedBy sharing).copyValue o' q')
      fun _ _ => True := by
  have hidle := isIdle_copy ho hq
  intro u s hrel
  unfold copyValue
  by_cases heq : o' = q'
  · rw [if_pos heq]
    split
    · exact fun _ => ⟨hrel, trivial⟩
    · refine Coupling.meets_of_not_strict id fun _ u1 _ s1 hrun hrun' hgood => ⟨?_, trivial⟩
      obtain ⟨record, openBlocks, hblocks, rfl⟩ := emitUnder_eq_ok hrun
      cases hblocks
      cases hrun'
      exact { hrel with code := hrel.code.skip hgood.begins (hidle.trans (decide_eq_true heq)) }
  · have hne : o ≠ q := by
      rintro rfl
      exact heq (State.eq_of_place_eq ho.2 hq.2 (ho.1.symm.trans hq.1))
    rw [if_neg heq, if_neg hne]
    exact renameSteps_emit (fun _ _ _ => ⟨hidle.trans (decide_eq_false heq), .copy ho.1 hq.1⟩) hrel

theorem renameSteps_reserve (h : i.Like fin.Twin j) (hjump : i.isJump) :
    (cx.renameCoupling sharing fin).Steps (cx.reserve i) ((cx.sharedBy sharing).reserve j)
      (cx.renameCoupling sharing fin).jump := by
  intro u s hrel
  show Coupling.Meets _ _ (cx.emitUnder u.callStack i u >>= fun r => .ok (u.code.size, r.2))
    ((cx.sharedBy sharing).emitUnder s.callStack j s >>= fun r => .ok (s.code.size, r.2))
  refine Coupling.meets_of_not_strict id fun a u1 a' s1 hrun hrun' hgood => ?_
  obtain ⟨⟨_, u1⟩, hemit, hrun⟩ := Checked.bind_eq_ok.1 hrun
  obtain ⟨⟨_, s1⟩, hemit', hrun'⟩ := Checked.bind_eq_ok.1 hrun'
  cases hrun
  cases hrun'
  have hmeets : Coupling.Meets _ _ (cx.emitUnder u.callStack i u)
      ((cx.sharedBy sharing).emitUnder s.callStack j s) :=
    renameSteps_emit (fun u _ _ => pairs_of_like h u) hrel
  rw [hemit, hemit'] at hmeets
  refine ⟨(hmeets hgood).1, hrel.code.size, ?_⟩
  obtain ⟨record, openBlocks, -, rfl⟩ := emitUnder_eq_ok hemit
  have hpushed : (u.code.push i record).instructions[u.code.size]? = some i := by
    simp [Bytecode.push, Bytecode.size]
  obtain ⟨k, hk, hshape⟩ := hgood.begins.exists_getElem? hpushed
  refine ⟨k, hk, ?_⟩
  rw [← k.isSome_forward?_shape, hshape, i.isSome_forward?_shape]
  cases h <;> first | rfl | cases hjump

theorem renameSteps_land (h : (cx.renameCoupling sharing fin).jump a a') :
    (cx.renameCoupling sharing fin).Steps (land a) (land a') fun _ _ => True := by
  obtain ⟨rfl, i, hi, hforward⟩ := h
  intro u s hrel
  refine Coupling.meets_of_not_strict id fun _ u1 _ s1 hrun hrun' hgood => ⟨?_, trivial⟩
  unfold land at hrun hrun'
  rw [Step.get_bind_apply, Step.lift_bind_apply] at hrun hrun'
  obtain ⟨code, hcode, hrun⟩ := Checked.bind_eq_ok.1 hrun
  obtain ⟨code', hcode', hrun'⟩ := Checked.bind_eq_ok.1 hrun'
  cases hrun
  cases hrun'
  have hbegins : fin.program.Begins u.code := by
    have hshape := Bytecode.shape_setOffset hcode
    unfold Program.Begins
    rw [← hshape]
    exact hgood.begins
  exact { hrel with code := hrel.code.land hbegins ⟨i, hi, hforward⟩ hcode hcode' }

theorem renameSteps_jumpBack (h : a' = fin.rank a) :
    (cx.renameCoupling sharing fin).Steps (do cx.emit (.jumpBackward ((← here) - a)))
      (do (cx.sharedBy sharing).emit (.jumpBackward ((← here) - a'))) fun _ _ => True := by
  subst h
  intro u s hrel
  show Coupling.Meets _ _ (cx.emitUnder u.callStack (.jumpBackward (u.code.size - a)) u)
    ((cx.sharedBy sharing).emitUnder s.callStack (.jumpBackward (s.code.size - fin.rank a)) s)
  rw [← hrel.callStack]
  exact (renameMeets_emitUnder hrel fun _ => ⟨rfl, hrel.code.follows_jumpBackward a⟩).mono
    fun _ _ _ _ h => ⟨h, trivial⟩

/-! ## Entering call sites -/

/-- The key of a local is not that of its default. -/
theorem localKey_ne_localDefaultKey {g : Graph} {callSite : CallStack} {name : String}
    (h : localKey g callSite name = .ok key) : key ≠ localDefaultKey function name := by
  obtain ⟨front, -, h⟩ := Checked.bind_eq_ok.1 h
  cases h
  intro heq
  have heq : front.toList ++ ("Local::".toList ++ name.toList) =
      ("Function::" ++ function ++ "::Local::").toList ++ (name.toList ++ "::Const".toList) := by
    simpa only [localDefaultKey, String.toList_append, List.append_assoc] using congrArg String.toList heq
  -- Both end in as many characters, and the name cannot make up for the one `L`.
  have hlocal : "Local::".toList = ['L', 'o', 'c', 'a', 'l', ':', ':'] := String.toList_ofList
  have hconst : "::Const".toList = [':', ':', 'C', 'o', 'n', 's', 't'] := String.toList_ofList
  rw [hlocal, hconst] at heq
  have hends := (List.append_inj' heq (by rw [List.length_append, List.length_append, Nat.add_comm]; rfl)).2
  have hcount := congrArg (List.count 'L') hends
  rw [List.count_append, List.count_append, Nat.add_comm] at hcount
  have := Nat.add_left_cancel hcount
  revert this
  decide

section Entering

variable (h : cx.Couples sharing fin) {callSite : CallStack}

include h

/-- A local is set to its default by both walks. -/
theorem Couples.meets_emitInitializer {v : LocalVariable} (hrel : fin.Renamed cx (cx.sharedBy sharing) u s)
    (hkept : cx.LocalKept u.storage callSite function v)
    (hkept' : (cx.sharedBy sharing).LocalKept s.storage callSite function v) :
    (cx.renameCoupling sharing fin).Meets (fun _ u' _ s' => fin.Renamed cx (cx.sharedBy sharing) u' s')
      (cx.emitInitializer callSite function v u) ((cx.sharedBy sharing).emitInitializer callSite function v s) := by
  obtain ⟨key, o, source, hkey, ho, hsource⟩ := hkept
  obtain ⟨key', o', source', hkey', ho', hsource'⟩ := hkept'
  cases hkey.symm.trans hkey'
  unfold emitInitializer
  rw [Step.lift_bind_apply, Step.lift_bind_apply, hkey, hkey', Checked.ok_bind, Checked.ok_bind,
    Step.get_bind_apply, Step.get_bind_apply, ho, hsource, ho', hsource']
  refine renameMeets_emitUnder hrel fun hgood => ?_
  have hdefault := hgood.storage'.keyed hsource'
  have hlocal := hgood.storage'.keyed ho'
  have htwin (k : String) {x y : Operand} (hx : u.storage.keyed.lookup k = some x)
      (hy : s.storage.keyed.lookup k = some y) : fin.Twin x y :=
    have hx : (Site.register k).Holds fin.left.storage x := hgood.storage.keyed hx
    h.twin_of_holds hx (hgood.storage'.keyed hy)
  refine ⟨?_, .copy (htwin _ hsource hsource').1 (htwin _ ho ho').1⟩
  rw [isIdle_copy (htwin _ hsource hsource') (htwin _ ho ho')]
  refine decide_eq_false fun heq => ?_
  subst heq
  exact localKey_ne_localDefaultKey hkey ((h.named' hlocal).key_eq (h.named' hdefault) rfl rfl)

theorem Couples.meets_emitInitializers (hrel : fin.Renamed cx (cx.sharedBy sharing) u s)
    (hsite : callSite ∈ fin.sites) :
    (cx.renameCoupling sharing fin).Meets (fun _ u' _ s' => fin.Renamed cx (cx.sharedBy sharing) u' s')
      (cx.emitInitializers callSite u) ((cx.sharedBy sharing).emitInitializers callSite s) := by
  refine Coupling.meets_emitInitializers (I := fin.Renamed cx (cx.sharedBy sharing)) rfl hrel ?_
  intro function v u1 s1 hv hrel1
  obtain ⟨hkept, hkept'⟩ := hrel1.kept callSite hsite
  exact h.meets_emitInitializer hrel1 (hkept function hv.1 v hv.2) (hkept' function hv.1 v hv.2)

theorem Couples.meets_initializeSite (hrel : fin.Renamed cx (cx.sharedBy sharing) u s)
    (hsite : cx.pass = .emit → callSite ∈ fin.sites) :
    (cx.renameCoupling sharing fin).Meets (fun _ u' _ s' => fin.Renamed cx (cx.sharedBy sharing) u' s')
      (cx.initializeSite callSite u) ((cx.sharedBy sharing).initializeSite callSite s) := by
  unfold initializeSite
  rw [Step.get_bind_apply, Step.get_bind_apply]
  cases hpass : cx.pass with
  | setup =>
    have hpass' : (cx.sharedBy sharing).pass = .setup := hpass
    rw [hpass']
    dsimp only
    rw [hrel.prepared]
    split
    · exact fun _ => hrel
    · refine Coupling.meets_of_not_strict id fun _ u1 _ s1 hrun hrun' _ => ?_
      have hu := Checked.Ends.of_ok stored_prepareLocals hrun
      have hs := Checked.Ends.of_ok stored_prepareLocals hrun'
      have hmark : fin.Renamed cx (cx.sharedBy sharing) { u with prepared := callSite :: s.prepared }
          { s with prepared := callSite :: s.prepared } := { hrel with prepared := rfl }
      exact renamed_stored hmark hu hs
  | emit =>
    have hpass' : (cx.sharedBy sharing).pass = .emit := hpass
    rw [hpass']
    dsimp only
    rw [hrel.initialized]
    split
    · exact fun _ => hrel
    · have hunrecorded : (cx.sharedBy sharing).options.recordCallStacks = false := h.unrecorded
      rw [h.unrecorded, hunrecorded]
      have hmark : fin.Renamed cx (cx.sharedBy sharing) { u with initialized := callSite :: s.initialized }
          { s with initialized := callSite :: s.initialized } := { hrel with initialized := rfl }
      refine (h.meets_emitInitializers hmark (hsite hpass)).bind ?_ (fun _ => keeps_recordInitializers) fun _ =>
        keeps_recordInitializers
      exact fun _ _ _ _ hrel _ => { hrel with }

/-- A call stack is entered by both walks in the same way. -/
theorem Couples.meets_enter (hrel : fin.Renamed cx (cx.sharedBy sharing) u s)
    (hsites : cx.pass = .emit → ∀ site ∈ stack.sites, site ∈ fin.sites) :
    (cx.renameCoupling sharing fin).Meets (fun _ u' _ s' => fin.Renamed cx (cx.sharedBy sharing) u' s')
      (cx.enter stack u) ((cx.sharedBy sharing).enter stack s) := by
  have hsite (cx : Context) (site : CallStack) : cx.Keeps (cx.initializeSite site) := fun _ =>
    grows_initializeSite.mono fun _ _ h => h.1
  refine Coupling.meets_enter (R := fin.Renamed cx (cx.sharedBy sharing)) hrel rfl (fun hrel => hrel.frames)
    (fun hrel _ => { hrel with frames := rfl })
    (fun hrel => ?_) fun hrel => { hrel with callStack := rfl, sites := hsites }
  refine Coupling.Meets.forM (fun _ u' s' => fin.Renamed cx (cx.sharedBy sharing) u' s') hrel ?_ (hsite _) (hsite _)
  intro done site rest hstack u1 s1 hrel1
  exact h.meets_initializeSite hrel1 fun hpass => hsites hpass site (by simp [hstack])

end Entering

/-! ## The laws -/

/-- Updates that the relation does not look at. -/
theorem renameSteps_modify {g g' : State → State} (h : ∀ {u s}, fin.Renamed cx (cx.sharedBy sharing) u s →
      fin.Renamed cx (cx.sharedBy sharing) (g u) (g' s)) :
    (cx.renameCoupling sharing fin).Steps (modify g) (modify g') fun _ _ => True :=
  fun _ _ hrel _ => ⟨h hrel, trivial⟩

theorem Couples.lawful (h : cx.Couples sharing fin) : (cx.renameCoupling sharing fin).Lawful where
  tree := rfl
  env := rfl
  pass := rfl
  failed_of_good _ hgood := ⟨hgood.failed, hgood.failed'⟩
  known_child := h.child
  callStack hrel := hrel.callStack
  failed hrel e := by rw [hrel.failed]
  visited hrel e := by rw [hrel.visited]
  visit {_ _ e} _ hrel := { hrel with visited := congrArg (e :: ·) hrel.visited }
  addr_size hrel := hrel.code.size
  span hrel _ _ _ _ := { hrel with }
  enter {e x u s} hknown hx hrel := by
    refine h.meets_enter hrel fun hpass => ?_
    cases hp : x.proxy with
    | none => exact hrel.sites hpass
    | some p => exact h.sites hpass hknown hx hp
  leave hrel _ _ hrel' := { hrel' with callStack := hrel.callStack, sites := hrel.sites }
  fail _ _ hstrict := hstrict.elim
  warning _ _ := renameSteps_modify fun hrel => { hrel with }
  emit hlike := renameSteps_emit fun u _ _ => pairs_of_like hlike u
  copyValue := renameSteps_copyValue
  reserve := renameSteps_reserve
  land := renameSteps_land
  jumpBack := renameSteps_jumpBack
  addEntry hrel name := { hrel with code := hrel.code.addEntry name }
  constant _ := h.attempts_of_site finds_constantOperand finds_constantOperand
  external _ := h.attempts_of_site finds_externalOperand finds_externalOperand
  value := h.attempts_value
  caseLabel n := h.attempts_of_key (finds_caseLabel n) (finds_caseLabel n)
  scratch := h.attempts_of_key finds_comparisonScratch finds_comparisonScratch
  publish _ _ _ _ := Coupling.steps_publish rfl fun _ => renameSteps_modify fun hrel => { hrel with }
  lookup hrel := hrel.operands
  remember {u s o o'} hrel ho e := by
    refine { hrel with operands := fun e' => ?_ }
    show Option.Rel _ (List.lookup e' ((e, o) :: u.operands)) (List.lookup e' ((e, o') :: s.operands))
    rw [List.lookup_cons, List.lookup_cons]
    split
    · exact .some ho
    · exact hrel.operands e'
  good_of_remember hgood := { hgood with }
  watch _ _ _ _ := Coupling.attempts_watch rfl rfl
    (fun p => renameAttempts_of_finds finds_watchOperand finds_watchOperand fun _ _ _ _ => trivial)
    fun _ => renameSteps_modify fun hrel => { hrel with }

end Context
end NodeGraph.Lowering
