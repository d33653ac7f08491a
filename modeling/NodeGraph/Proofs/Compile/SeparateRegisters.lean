import Mathlib
import NodeGraph.Proofs.Compile.SharedOperands
import NodeGraph.Proofs.Lowering.Keys

/-!
# Pins that do not share storage have different operands

The register of a value is named after the least pin of its group. If names contain no separators, nothing
else has a register of that name, and the name leads back to the pin. So variable expressions with one
operand are of one group, and of the same path below its root pin (`compilePartial_separates_registers`).
-/
namespace NodeGraph

open Lowering

/-! ## Operands and the names of their registers -/

namespace Lowering.Storage

variable {s : Storage} {base base' o : Operand} {segments segments' : String}

/-- A member has one path. -/
theorem Member.segments_eq (h : s.Member base segments o) (h' : s.Member base' segments' o) :
    segments = segments' := by
  obtain ⟨table, k, ht, hk, rfl⟩ := h
  obtain ⟨table', k', ht', hk', heq⟩ := h'
  obtain ⟨hmemory, -, hpath⟩ := Operand.mk.inj heq
  cases hpath
  rw [hmemory] at ht
  cases ht.symm.trans ht'
  obtain ⟨hlt, hentry, -⟩ := List.findIdx?_eq_some_iff_getElem.1 hk
  obtain ⟨hlt', hentry', -⟩ := List.findIdx?_eq_some_iff_getElem.1 hk'
  have hsame := (of_decide_eq_true hentry).symm.trans (of_decide_eq_true hentry')
  exact (PropertyPath.mk.inj hsame).2

/-- The operand of a path below a register, which is that of the register if the path is empty. -/
def Below (s : Storage) (base : Operand) (segments : String) (o : Operand) : Prop :=
  if segments = "" then o = base else s.Member base segments o

theorem Below.cell_eq (h : s.Below base segments o) : o.memory = base.memory ∧ o.index = base.index := by
  unfold Below at h
  split at h
  · rw [h]
    exact ⟨rfl, rfl⟩
  · obtain ⟨table, k, -, -, rfl⟩ := h
    exact ⟨rfl, rfl⟩

/-- Below whole registers, an operand has one path. -/
theorem Below.segments_eq (h : s.Below base segments o) (h' : s.Below base' segments' o)
    (hbase : base.propertyPath = none) (hbase' : base'.propertyPath = none) : segments = segments' := by
  unfold Below at h h'
  split at h
  · next hnone =>
    split at h'
    · next hnone' => rw [hnone, hnone']
    · obtain ⟨table, k, -, -, rfl⟩ := h'
      rw [← h] at hbase
      cases hbase
  · split at h'
    · obtain ⟨table, k, -, -, rfl⟩ := h
      rw [← h'] at hbase'
      cases hbase'
    · exact h.segments_eq h'

end Lowering.Storage

namespace Tree

variable {t : Tree} {env : Environment} {options : CompileOptions} {sharing : Sharing} {s : State}
  {e e' : ExprId} {root root' : Proxy} {segments segments' : String} {o : Operand}

theorem VarAt.isRoot (h : t.VarAt e root segments) : root.IsRoot t.graph := by
  obtain ⟨x, p, id, rootId, -, -, -, -, hroot, rfl, -⟩ := h
  exact Proxy.isRoot_withPin hroot

/-- Nothing in the group of a root pin is a pin of a variable or a parameter. -/
def NoVariables (t : Tree) (sharing : Sharing) (root : Proxy) : Prop :=
  ∀ q ∈ sharing.group root, isVariablePin t.graph q = .ok false

/-- Without variables, the value of a root pin is kept in the register named after its group. -/
theorem NoVariables.rootSite_eq {cx : Context} {site : Site} (hnone : cx.tree.NoVariables cx.sharing root)
    (hsite : cx.rootSite root = .ok (some site)) :
    ∃ path, (cx.sharing.representative root).path cx.tree.graph = .ok path ∧ site = .register path := by
  have hfind : (cx.sharing.group root).findM? (m := Checked) (isVariablePin cx.tree.graph) = .ok none := by
    unfold NoVariables at hnone
    generalize cx.sharing.group root = group at hnone
    induction group with
    | nil => rfl
    | cons q group ih =>
      rw [Checked.findM?_cons, hnone q (by simp)]
      exact ih fun q' hq' => hnone q' (by simp [hq'])
  unfold Context.rootSite at hsite
  rw [hfind, Checked.ok_bind] at hsite
  obtain ⟨path, hpath, hsite⟩ := Checked.bind_eq_ok.1 hsite
  cases hsite
  exact ⟨path, hpath, rfl⟩

/-- The operand of a root pin without variables is named after its group. -/
theorem VarAt.named (h : t.VarAt e root segments) (hs : t.loweredWith env options sharing = .ok s)
    (hnone : t.NoVariables sharing root) (ho : (e, o) ∈ s.operands) :
    ∃ path base, (sharing.representative root).path t.graph = .ok path ∧ s.storage.Named path base ∧
      s.storage.Below base segments o := by
  obtain ⟨site, base, hsite, hbase, ho⟩ := h.locatedAt hs ho
  obtain ⟨path, hpath, rfl⟩ := hnone.rootSite_eq hsite
  exact ⟨path, base, hpath, named_of_lowered hs hbase, ho⟩

/-- The key of a register made for a pin says in which memory space it is. -/
theorem memory_of_named (hs : t.loweredWith env options sharing = .ok s) (hnames : t.graph.PlainNames)
    (hsharing : sharing.ExistsIn t.graph) {p : Proxy} {path suffix : String} {space : MemorySpace}
    (hp : p.pin?.isSome = true) (hpath : p.path t.graph = .ok path) (hsuffix : suffix ∈ suffixes space)
    (ho : s.storage.Named (path ++ suffix) o) : o.memory = space := by
  obtain ⟨table, r, build, -, -, hmakes, -⟩ := makes_of_named hs ho
  exact hmakes.space_eq hnames.bare hsharing hp hpath hsuffix

section Separation

variable (hs : t.loweredWith env options sharing = .ok s) (hnames : t.graph.PlainNames)

include hs hnames

/-- The value of a pin that shares storage with no variable is in work memory. -/
theorem VarAt.memory_eq (h : t.VarAt e root segments) (hsharing : sharing.ExistsIn t.graph)
    (hnone : t.NoVariables sharing root) (ho : (e, o) ∈ s.operands) : o.memory = .work := by
  obtain ⟨path, base, hpath, hbase, ho⟩ := h.named hs hnone ho
  have hpin := Sharing.isSome_pin?_representative hsharing h.isRoot.isSome
  have hsuffix : "" ∈ suffixes .work := by simp [suffixes]
  rw [ho.cell_eq.1]
  exact memory_of_named hs hnames hsharing hpin hpath hsuffix (by simpa using hbase)

/-- Variable expressions with one operand are of one group, and of one path. -/
theorem VarAt.eq_of_operand (h : t.VarAt e root segments) (h' : t.VarAt e' root' segments')
    (hparts : sharing.Partitions t.Shares) (hnone : t.NoVariables sharing root)
    (hnone' : t.NoVariables sharing root') (ho : (e, o) ∈ s.operands) (ho' : (e', o) ∈ s.operands) :
    root' ∈ sharing.group root ∧ segments' = segments := by
  obtain ⟨path, base, hpath, hbase, ho⟩ := h.named hs hnone ho
  obtain ⟨path', base', hpath', hbase', ho'⟩ := h'.named hs hnone' ho'
  have hmemory := ho.cell_eq.1.symm.trans ho'.cell_eq.1
  have hindex := ho.cell_eq.2.symm.trans ho'.cell_eq.2
  obtain rfl := hbase.key_eq hbase' hmemory hindex
  refine ⟨?_, ho'.segments_eq ho hbase'.1 hbase.1⟩
  -- One name is that of one pin, so both groups have one least pin.
  obtain ⟨hmem, -⟩ := hparts.representative_least root
  obtain ⟨hmem', -⟩ := hparts.representative_least root'
  have hroot := (isRoot_of_eqvGen ((hparts.mem_group _ _).1 hmem)).1 h.isRoot
  have hroot' := (isRoot_of_eqvGen ((hparts.mem_group _ _).1 hmem')).1 h'.isRoot
  have heq := Proxy.path_injective hnames hroot hroot' hpath hpath'
  rw [← heq] at hmem'
  rw [← hparts.group_eq hmem, hparts.group_eq hmem']
  exact hparts.self root'

/-- The default of a pin is in literal memory. -/
theorem literal_memory_eq (hsharing : sharing.ExistsIn t.graph) {x : Expression} (hx : t.expr? e = some x)
    (hkind : x.kind = .literal) (ho : (e, o) ∈ s.operands) : o.memory = .literal := by
  obtain ⟨p, -, hkept⟩ := placed_of_lowered hs (e, o) ho x hx (by rw [hkind]; rfl)
  rw [hkind] at hkept
  obtain ⟨site, hsite, hholds⟩ := hkept
  obtain ⟨path, suffix, hp, hpath, hsuffix, rfl⟩ := Context.constantSite_cases hsite
  exact memory_of_named hs hnames hsharing hp hpath (by simpa [suffixes] using hsuffix) (named_of_lowered hs hholds)

end Separation
end Tree

variable {t : Tree} {env : Environment} {options : CompileOptions} {p : Program} {errors : Nat}
  {report : Report}

/-- Where names contain no separators and are different in each place, the values of a compiled program are
separated. Variable expressions that share storage with no variable and no parameter have one operand only
if their root pins are in one group and their paths below them are the same. Their operands are in work
memory, those of literals in literal memory, and the mirrors of watched operands in debug memory. -/
theorem compilePartial_separates_registers
    (h : t.compilePartial env options = .ok ⟨.ok (p, errors), report⟩) (hnames : t.graph.PlainNames) :
    ∃ s sharing, t.lowered env options = .ok s ∧ p = s.program env.externals ∧
      Sharing.ofTree t = .ok sharing ∧
      (∀ {e e' root root' segments segments' o}, t.VarAt e root segments → t.VarAt e' root' segments' →
        t.NoVariables sharing root → t.NoVariables sharing root' → (e, o) ∈ s.operands →
        (e', o) ∈ s.operands → root' ∈ sharing.group root ∧ segments' = segments) ∧
      (∀ {e root segments o}, t.VarAt e root segments → t.NoVariables sharing root →
        (e, o) ∈ s.operands → o.memory = .work) ∧
      (∀ {e x o}, t.expr? e = some x → x.kind = .literal → (e, o) ∈ s.operands → o.memory = .literal) ∧
      ∀ entry ∈ p.debugMirrors.toList, ∀ m ∈ entry.2, m.memory = .debug := by
  obtain ⟨hissues, s, hs, rfl, -⟩ := Tree.compilePartial_eq_ok_iff.1 h
  obtain ⟨sharing, hsharing, hexists, hwith, hlowered⟩ := Tree.lowered_of_issues hissues hs
  have hparts : sharing.Partitions t.Shares :=
    (Sharing.partitions_ofTree (Tree.valid_of_issues hissues).hasPins).of_ok hsharing
  refine ⟨s, sharing, hs, rfl, hsharing, ?_, ?_, ?_, ?_⟩
  · intro e e' root root' segments segments' o hvar hvar' hnone hnone' ho ho'
    exact hvar.eq_of_operand hwith hnames hvar' hparts hnone hnone' ho ho'
  · intro e root segments o hvar hnone ho
    exact hvar.memory_eq hwith hnames hexists hnone ho
  · intro e x o hx hkind ho
    exact Tree.literal_memory_eq hwith hnames hexists hx hkind ho
  · intro entry hentry m hm
    obtain ⟨q, path, hq, hpath, hnamed⟩ := hlowered.sound.watched entry hentry m hm
    exact Tree.memory_of_named hwith hnames hexists hq hpath (by simp [suffixes]) hnamed

/-! ## Two calls that share nothing -/

/-- A call with a literal and a result, and a call with a value of its own. -/
def apartTree : Tree where
  graph := {
    nodes := [⟨"Go", .event "Go", [], none⟩, ⟨"Make", .unit "make", [0, 1], none⟩,
      ⟨"Use", .unit "use", [2], none⟩]
    pins := [
      { node := 1, name := "Seed", direction := .input, typeName := "int32", defaultValue := "7" },
      { node := 1, name := "Value", direction := .output, typeName := "int32" },
      { node := 2, name := "Value", direction := .input, typeName := "int32" }] }
  exprs := [
    { kind := .entry, name := "Go", children := [1, 4], proxy := some ⟨[], .node 0⟩ },
    { kind := .call, name := "Make", children := [2, 3], proxy := some ⟨[], .node 1⟩ },
    { kind := .literal, name := "Seed", proxy := some ⟨[], .pin 0⟩ },
    { kind := .var, name := "Value", proxy := some ⟨[], .pin 1⟩ },
    { kind := .call, name := "Use", children := [5], proxy := some ⟨[], .node 2⟩ },
    { kind := .var, name := "Value", proxy := some ⟨[], .pin 2⟩ }]
  roots := [0]

theorem plainNames_apartTree : apartTree.graph.PlainNames :=
  .of_pairwise (by decide) (by decide) (by decide) (by decide)

theorem lowered_apartTree : ∃ s, apartTree.lowered forkEnv {} = .ok s ∧
    s.operands = [(5, ⟨.work, 1, none⟩), (3, ⟨.work, 0, none⟩), (2, ⟨.literal, 0, none⟩)] ∧
    s.report.errors = 0 := by
  exact Checked.exists_ok_of_any (by decide +kernel)

/-- The values of the two calls have different operands, in the memory of their kind. -/
theorem compilePartial_separates_registers_apartTree : ∃ p report s o o' literal,
    apartTree.compilePartial forkEnv {} = .ok ⟨.ok (p, 0), report⟩ ∧ apartTree.graph.PlainNames ∧
      apartTree.lowered forkEnv {} = .ok s ∧ (3, o) ∈ s.operands ∧ (5, o') ∈ s.operands ∧
      (2, literal) ∈ s.operands ∧ o ≠ o' ∧ o.memory = .work ∧ o'.memory = .work ∧ literal.memory = .literal ∧
      ∀ entry ∈ p.debugMirrors.toList, ∀ m ∈ entry.2, m.memory = .debug := by
  obtain ⟨s, hs, hoperands, herrors⟩ := lowered_apartTree
  have hp : apartTree.compilePartial forkEnv {} = .ok ⟨.ok (s.program [], 0), _⟩ :=
    Tree.compilePartial_eq_ok_iff.2 ⟨rfl, s, hs, rfl, herrors.symm, rfl⟩
  obtain ⟨s', sharing, hs', hprogram, hsharing, hseparate, hwork, hliteral, hdebug⟩ :=
    compilePartial_separates_registers hp plainNames_apartTree
  cases hs.symm.trans hs'
  cases hsharing
  have hvar : apartTree.VarAt 3 ⟨[], .pin 1⟩ "" := ⟨_, _, 1, 1, rfl, rfl, rfl, rfl, rfl, rfl, rfl⟩
  have hvar' : apartTree.VarAt 5 ⟨[], .pin 2⟩ "" := ⟨_, _, 2, 2, rfl, rfl, rfl, rfl, rfl, rfl, rfl⟩
  have hnone {id : PinId} (hid : id ∈ [1, 2]) : apartTree.NoVariables {} ⟨[], .pin id⟩ := by
    unfold Tree.NoVariables
    revert id
    decide
  have ho : (3, ⟨.work, 0, none⟩) ∈ s.operands := by simp [hoperands]
  have ho' : (5, ⟨.work, 1, none⟩) ∈ s.operands := by simp [hoperands]
  have hl : (2, ⟨.literal, 0, none⟩) ∈ s.operands := by simp [hoperands]
  refine ⟨_, _, s, _, _, _, hp, plainNames_apartTree, hs, ho, ho', hl, fun heq => ?_,
    hwork hvar (hnone (by simp)) ho, hwork hvar' (hnone (by simp)) ho', hliteral rfl rfl hl, hdebug⟩
  exact absurd (hseparate hvar hvar' (hnone (by simp)) (hnone (by simp)) ho (heq ▸ ho')).1 (by decide)

end NodeGraph
