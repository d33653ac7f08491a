import Mathlib
import NodeGraph.Proofs.Compile.Producers
import NodeGraph.Proofs.Lowering.Growth
import NodeGraph.Proofs.Sharing.Components

/-!
# Pins that share storage have one operand

The operand of a variable expression is found when the walk first asks for it, in either pass and in any
order. Whenever that is, it is the operand of the place where the value of the pin is kept, and that place
depends only on the group of the root pin and on the path below it. So two expressions of one group with
the same path have the same operand (`compilePartial_shares_operands`).
-/
namespace NodeGraph

namespace Lowering.Context

variable {cx : Context} {r : Proxy → Proxy → Prop} {s : Storage} {p q : Proxy} {segments : String}
  {o o' : Operand}

/-- The site of a root pin is that of its group. -/
theorem rootSite_eq (hs : cx.sharing.Partitions r) (h : q ∈ cx.sharing.group p) :
    cx.rootSite q = cx.rootSite p := by
  unfold rootSite
  rw [hs.group_eq h, hs.representative_eq h]

theorem LocatedAt.eq_of_mem_group (hs : cx.sharing.Partitions r) (hq : q ∈ cx.sharing.group p)
    (h : cx.LocatedAt s p segments o) (h' : cx.LocatedAt s q segments o') : o = o' := by
  refine h.unique ?_
  obtain ⟨site, base, hsite, hbase, ho'⟩ := h'
  rw [rootSite_eq hs hq] at hsite
  exact ⟨site, base, hsite, hbase, ho'⟩

end Lowering.Context

namespace Tree

variable {t : Tree} {env : Environment} {options : CompileOptions} {sharing : Sharing} {s : Lowering.State}
  {e : ExprId} {root : Proxy} {segments : String} {o : Operand}

/-- `e` is a variable expression of the pin at a path below a root pin. -/
def VarAt (t : Tree) (e : ExprId) (root : Proxy) (segments : String) : Prop :=
  ∃ x p id rootId, t.expr? e = some x ∧ x.kind = .var ∧ x.proxy = some p ∧ p.pin? = some id ∧
    t.graph.rootPin id = .ok rootId ∧ root = p.withPin rootId ∧ t.graph.propertySegments id = .ok segments

theorem VarAt.of_placed {cx : Lowering.Context} {storage : Lowering.Storage} (hplaced : cx.Placed storage (e, o))
    (h : cx.tree.VarAt e root segments) : cx.LocatedAt storage root segments o := by
  obtain ⟨x, p, id, rootId, hx, hkind, hp, hid, hroot, rfl, hsegments⟩ := h
  obtain ⟨p', hp', hkept⟩ := hplaced x hx (by rw [hkind]; rfl)
  cases hp.symm.trans hp'
  rw [hkind] at hkept
  obtain ⟨id', rootId', segments', hid', hroot', hsegments', hat⟩ := hkept
  cases hid.symm.trans hid'
  cases hroot.symm.trans hroot'
  cases hsegments.symm.trans hsegments'
  exact hat

theorem VarAt.locatedAt (h : t.VarAt e root segments) (hs : t.loweredWith env options sharing = .ok s)
    (ho : (e, o) ∈ s.operands) :
    Lowering.Context.LocatedAt ⟨t, env, options, sharing, .emit⟩ s.storage root segments o :=
  VarAt.of_placed (placed_of_lowered hs (e, o) ho) h

theorem Valid.hasPins (h : t.Valid) : ∀ l ∈ t.links, l.HasPins t.graph := by
  intro l hl id hid
  obtain ⟨hsource, htarget⟩ := h.links l hl
  rcases hid with hid | hid
  · exact Option.isSome_iff_exists.2 (Proxy.exists_pin hsource hid)
  · exact Option.isSome_iff_exists.2 (Proxy.exists_pin htarget hid)

/-- The lowering behind a program that compiles without errors. -/
structure Built (t : Tree) (env : Environment) (options : CompileOptions) (p : Program) (sharing : Sharing)
    (checked prepared s : Lowering.State) : Prop where
  issues : t.issues env = .ok []
  lowered : t.lowered env options = .ok s
  program : p = s.program env.externals
  ofTree : Sharing.ofTree t = .ok sharing
  existsIn : sharing.ExistsIn t.graph
  partitions : sharing.Partitions t.Shares
  loweredWith : t.loweredWith env options sharing = .ok s
  passes : t.Passes env options sharing checked prepared s
  failed : s.failed = []

theorem exists_built {p : Program} {report : Report} (h : t.compile env options = .ok ⟨.ok p, report⟩) :
    ∃ sharing checked prepared s, t.Built env options p sharing checked prepared s := by
  obtain ⟨report', hpartial⟩ := compilePartial_of_compile h
  obtain ⟨hissues, s, hs, hp, herrors, -⟩ := compilePartial_eq_ok_iff.1 hpartial
  obtain ⟨sharing, hsharing, hexists, hwith, hlowered⟩ := lowered_of_issues hissues hs
  obtain ⟨checked, prepared, hpasses⟩ := exists_passes hwith
  have hparts := (Sharing.partitions_ofTree (valid_of_issues hissues).hasPins).of_ok hsharing
  exact ⟨sharing, checked, prepared, s, hissues, hs, hp, hsharing, hexists, hparts, hwith, hpasses,
    hlowered.sound.failed_eq_nil herrors.symm⟩

end Tree

variable {t : Tree} {env : Environment} {options : CompileOptions} {p : Program} {errors : Nat}
  {report : Report}

/-- In a compiled program, variable expressions whose root pins are in one group of shared pins and whose
paths below them are the same have one operand; so have those of the two ends of a shareable link. -/
theorem compilePartial_shares_operands
    (h : t.compilePartial env options = .ok ⟨.ok (p, errors), report⟩) :
    ∃ s sharing, t.lowered env options = .ok s ∧ p = s.program env.externals ∧
      Sharing.ofTree t = .ok sharing ∧
      (∀ {e e' root root' segments o o'}, t.VarAt e root segments → t.VarAt e' root' segments →
        root' ∈ sharing.group root → (e, o) ∈ s.operands → (e', o') ∈ s.operands → o = o') ∧
      ∀ l ∈ t.links, l.Shareable t.graph → ∀ {e e' segments o o'}, t.VarAt e l.source segments →
        t.VarAt e' l.target segments → (e, o) ∈ s.operands → (e', o') ∈ s.operands → o = o' := by
  obtain ⟨hissues, s, hs, hp, -, -⟩ := Tree.compilePartial_eq_ok_iff.1 h
  obtain ⟨sharing, hsharing, hlowered⟩ := Checked.bind_eq_ok.1 hs
  have hparts : sharing.Partitions t.Shares :=
    (Sharing.partitions_ofTree (Tree.valid_of_issues hissues).hasPins).of_ok hsharing
  have hshared : ∀ {e e' root root' segments o o'}, t.VarAt e root segments → t.VarAt e' root' segments →
      root' ∈ sharing.group root → (e, o) ∈ s.operands → (e', o') ∈ s.operands → o = o' :=
    fun hvar hvar' hgroup ho ho' =>
      (hvar.locatedAt hlowered ho).eq_of_mem_group hparts hgroup (hvar'.locatedAt hlowered ho')
  refine ⟨s, sharing, hs, hp, hsharing, hshared, fun l hl hl' _ _ _ _ _ hvar hvar' => ?_⟩
  exact hshared hvar hvar' ((hparts.mem_group _ _).2 (.rel _ _ ⟨l, hl, hl', rfl, rfl⟩))

/-- A call makes an array, and another reads it and its first element. -/
def elementTree : Tree where
  graph := {
    nodes := [⟨"Go", .event "Go", [], none⟩, ⟨"Make", .unit "make", [0], none⟩,
      ⟨"Use", .unit "use", [2], none⟩]
    pins := [
      { node := 1, name := "Values", direction := .output, typeName := "int32", isArray := true,
        subPins := [1] },
      { node := 1, name := "0", direction := .output, typeName := "int32", parent := some 0 },
      { node := 2, name := "Values", direction := .input, typeName := "int32", isArray := true,
        subPins := [3] },
      { node := 2, name := "0", direction := .input, typeName := "int32", parent := some 2 }] }
  exprs := [
    { kind := .entry, name := "Go", children := [1, 4], proxy := some ⟨[], .node 0⟩ },
    { kind := .call, name := "Make", children := [2, 3], proxy := some ⟨[], .node 1⟩ },
    { kind := .var, name := "Values", proxy := some ⟨[], .pin 0⟩ },
    { kind := .var, name := "0", proxy := some ⟨[], .pin 1⟩ },
    { kind := .call, name := "Use", children := [5, 6], proxy := some ⟨[], .node 2⟩ },
    { kind := .var, name := "0", proxy := some ⟨[], .pin 3⟩ },
    { kind := .var, name := "Values", proxy := some ⟨[], .pin 2⟩ }]
  roots := [0]
  links := [⟨⟨[], .pin 0⟩, ⟨[], .pin 2⟩⟩]

def elementEnv : Environment where
  catalog := ⟨[⟨"make", [⟨"Values", .output⟩]⟩, ⟨"use", [⟨"Values", .input⟩]⟩]⟩

theorem ofTree_elementTree : Sharing.ofTree elementTree = .ok ⟨[[⟨[], .pin 0⟩, ⟨[], .pin 2⟩]]⟩ := by cbv

theorem lowered_elementTree : ∃ s, elementTree.lowered elementEnv {} = .ok s ∧
    s.operands = [(6, ⟨.work, 0, none⟩), (5, ⟨.work, 0, some 0⟩), (3, ⟨.work, 0, some 0⟩),
      (2, ⟨.work, 0, none⟩)] ∧ s.report.errors = 0 := by
  rw [Tree.lowered_eq ofTree_elementTree]
  exact Checked.exists_ok_of_any (by decide +kernel)

theorem varAt_elementTree : elementTree.VarAt 3 ⟨[], .pin 0⟩ "[0]" ∧ elementTree.VarAt 5 ⟨[], .pin 2⟩ "[0]" :=
  ⟨⟨_, _, 1, 0, rfl, rfl, rfl, rfl, rfl, rfl, rfl⟩, ⟨_, _, 3, 2, rfl, rfl, rfl, rfl, rfl, rfl, rfl⟩⟩

/-- The first elements of the two arrays have one operand. -/
theorem compilePartial_shares_operands_elementTree : ∃ p report s o,
    elementTree.compilePartial elementEnv {} = .ok ⟨.ok (p, 0), report⟩ ∧
      elementTree.lowered elementEnv {} = .ok s ∧ elementTree.VarAt 3 ⟨[], .pin 0⟩ "[0]" ∧
        elementTree.VarAt 5 ⟨[], .pin 2⟩ "[0]" ∧ (3, o) ∈ s.operands ∧ (5, o) ∈ s.operands := by
  obtain ⟨s, hs, hoperands, herrors⟩ := lowered_elementTree
  have hp : elementTree.compilePartial elementEnv {} = .ok ⟨.ok (s.program [], 0), _⟩ :=
    Tree.compilePartial_eq_ok_iff.2 ⟨rfl, s, hs, rfl, herrors.symm, rfl⟩
  obtain ⟨s', -, hs', -, -, -, hlinked⟩ := compilePartial_shares_operands hp
  cases hs.symm.trans hs'
  have hshareable : ProxyLink.Shareable elementTree.graph ⟨⟨[], .pin 0⟩, ⟨[], .pin 2⟩⟩ :=
    ⟨0, 2, _, _, _, rfl, rfl, rfl, rfl, rfl, rfl, by decide, rfl, by decide⟩
  obtain ⟨hvar, hvar'⟩ := varAt_elementTree
  obtain ⟨o, ho⟩ : ∃ o, (3, o) ∈ s.operands := ⟨⟨.work, 0, some 0⟩, by simp [hoperands]⟩
  obtain ⟨o', ho'⟩ : ∃ o, (5, o) ∈ s.operands := ⟨⟨.work, 0, some 0⟩, by simp [hoperands]⟩
  have hsame := hlinked _ (by simp [elementTree]) hshareable hvar hvar' ho ho'
  exact ⟨_, _, s, o, hp, hs, hvar, hvar', ho, hsame ▸ ho'⟩

end NodeGraph
