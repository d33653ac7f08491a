import NodeGraph.Proofs.Bytecode.Path
import NodeGraph.Proofs.Compile.Sound

/-!
# Producers and their uses

A call is fed by another call through a cached value that is assigned to one of its pins. Every
expression is lowered once, wherever the walk meets it first, so the producer is called at a smaller
address than its use. Whether it has run when its use runs depends on who else uses it: a producer that
two arms of a branch share is called in the arm lowered first, and a path through the other arm jumps
over it (`forkTree_not_dominates`). A path that misses the producer always does that or enters behind it;
and a producer without other uses has run on every path (`producer_before_use`).
-/
namespace NodeGraph

namespace Tree

/-- No expression is below itself. -/
def ChildrenAcyclic (t : Tree) : Prop := ∀ e, ¬ Relation.TransGen t.IsChild e e

/-- The value `v` of `c` is assigned, by `a`, a cached value `m` that depends on `p`. -/
structure Feeds (t : Tree) (c v a m p : ExprId) : Prop where
  value : t.IsChild c v
  isValue : ∃ kind, t.kind v = .ok kind ∧ kind.isValue = true
  assign : t.IsChild v a
  isAssign : t.kind a = .ok .assign
  cache : t.IsChild a m
  isCache : t.kind m = .ok .cachedValue
  producer : t.IsChild m p

section Feeds

variable {t : Tree} {c v a m p : ExprId} (h : t.Feeds c v a m p)
include h

theorem Feeds.value_isStraight : t.IsStraight v := by
  obtain ⟨kind, hkind, hvalue⟩ := h.isValue
  exact .inr ⟨kind, hkind, by simp [hvalue]⟩

theorem Feeds.assign_isStraight : t.IsStraight a := .inr ⟨_, h.isAssign, rfl⟩

theorem Feeds.cache_isStraight : t.IsStraight m := .inr ⟨_, h.isCache, rfl⟩

end Feeds

/-- `y` is a child of `x` only, and not a root. -/
def OnlyBelow (t : Tree) (y x : ExprId) : Prop := y ∉ t.roots ∧ ∀ z, t.IsChild z y → z = x

/-- What holds of the children in all child lists holds of all children. -/
theorem forall_isChild {t : Tree} {P : ExprId → ExprId → Prop} : (∀ e c, t.IsChild e c → P e c) ↔
    ∀ entry ∈ t.exprs.zipIdx, ∀ c ∈ entry.1.children, P entry.2 c := by
  constructor
  · intro h entry hentry c hc
    exact h entry.2 c ⟨entry.1, List.mem_zipIdx_iff_getElem?.1 hentry, hc⟩
  · rintro h e c ⟨x, hx, hc⟩
    exact h (x, e) (List.mem_zipIdx_iff_getElem?.2 hx) c hc

instance (t : Tree) (y x : ExprId) : Decidable (t.OnlyBelow y x) :=
  decidable_of_iff
    (y ∉ t.roots ∧ ∀ entry ∈ t.exprs.zipIdx, ∀ c ∈ entry.1.children, c = y → entry.2 = x) <| by
      rw [OnlyBelow, ← forall_isChild (P := fun z c => c = y → z = x)]
      grind

end Tree

namespace Lowering

variable {sp' : Span}

/-- The code of `e` ends at the address `k`, with a call of the function. -/
def State.ExecutesAt (s : State) (catalog : Catalog) (e : ExprId) (function : String) (k : Nat) :
    Prop :=
  (∃ sp ∈ s.spans, sp.expr = e ∧ sp.stop = k + 1) ∧ ∃ number operands,
    catalog.index? function = some number ∧
      s.code.instructions[k]? = some (.execute number operands)

/-- The code of one expression lies in that of another, and no jump goes from in front of it over its
start. -/
structure Leads (code : List Instruction) (sp sp' : Span) : Prop where
  start_le : sp.start ≤ sp'.start
  stop_le : sp'.stop ≤ sp.stop
  direct : ∀ {a t}, Forward 0 code a t → sp.start ≤ a → a < sp'.start → t ≤ sp'.start

theorem Leads.trans {code : List Instruction} {sp sp'' : Span} (h : Leads code sp sp')
    (h' : Leads code sp' sp'') : Leads code sp sp'' where
  start_le := Nat.le_trans h.start_le h'.start_le
  stop_le := Nat.le_trans h'.stop_le h.stop_le
  direct {a t} hf hstart hlt := by
    by_cases ha : a < sp'.start
    · exact Nat.le_trans (h.direct hf hstart ha) h'.start_le
    · exact h'.direct hf (by omega) hlt

namespace Context

variable {cx : Context} {s : State} {sp : Span} {y : ExprId}

namespace Lowered

variable (h : cx.Lowered s)
include h

theorem span_unique (hsp : sp ∈ s.spans) (hsp' : sp' ∈ s.spans) (heq : sp.expr = sp'.expr) : sp = sp' :=
  List.inj_on_of_nodup_map h.distinct hsp hsp' heq

variable (hok : s.failed = [])
include hok

/-- The call of a call expression is its last instruction, and no jump inside its code goes over it. -/
theorem executes (hsp : sp ∈ s.spans) {function : String} (hunit : cx.tree.IsUnitCall sp.expr function) :
    ∃ k, s.ExecutesAt cx.env.catalog sp.expr function k ∧ sp.stop = k + 1 ∧ sp.start ≤ k ∧
      ∀ {a t}, Forward 0 s.code.instructions a t → sp.start ≤ a → a < sp.stop → t ≤ k := by
  obtain ⟨ms, hlayout⟩ := h.layout
  obtain ⟨front, part, rest, _, _, hcode, hstart, hstop, -, hown, -⟩ := hlayout.exists_part sp hsp
  rcases hown with hf | hown
  · simp [hok] at hf
  obtain ⟨before, number, operands, hpart, hindex, hover⟩ := hown.executes hunit h.emitted
  have hlen : part.length = before.length + 1 := by simp [hpart]
  refine ⟨sp.start + before.length, ⟨⟨sp, hsp, rfl, by omega⟩, number, operands, hindex, ?_⟩, by omega,
    by omega, fun {a t} hf hle hlt => ?_⟩
  · rw [hcode, hpart, hstart]
    simp
  · obtain ⟨x, hx, d, hd, rfl⟩ := hf
    rw [hcode] at hx
    refine hover ⟨x, ?_, d, hd, rfl⟩
    rw [hstart]
    exact at_part hx (by omega) (by omega)

variable (hacyclic : cx.tree.ChildrenAcyclic)
include hacyclic

/-- The children of a straight expression have code that ends before its own. -/
theorem exists_child (hsp : sp ∈ s.spans) (hstraight : cx.tree.IsStraight sp.expr)
    (hy : cx.tree.IsChild sp.expr y) : ∃ sp' ∈ s.spans, sp'.expr = y ∧ sp'.stop ≤ sp.stop ∧
      ((∃ function, cx.tree.IsUnitCall sp.expr function) → sp'.stop < sp.stop) := by
  rcases h.fed hsp with hf | hfed
  · simp [hok] at hf
  rcases hfed hstraight hy with hf | hback | ⟨sp', hsp', hexpr, hstop, hcall⟩
  · simp [hok] at hf
  · exact absurd (Relation.TransGen.head' hy hback) (hacyclic _)
  · exact ⟨sp', hsp', hexpr, hstop, fun hunit => hcall hunit h.emitted⟩

/-- A child of a straight expression that nothing else lowers has its code in that of the expression. -/
theorem exists_leads (hsp : sp ∈ s.spans) (hstraight : cx.tree.IsStraight sp.expr)
    (hy : cx.tree.IsChild sp.expr y) (honly : cx.tree.OnlyBelow y sp.expr)
    (hblock : cx.tree.kind y ≠ .ok .block) :
    ∃ sp' ∈ s.spans, sp'.expr = y ∧ Leads s.code.instructions sp sp' := by
  obtain ⟨ms, hlayout⟩ := h.layout
  obtain ⟨front, part, rest, ss, _, hcode, hstart, hstop, hpart, hown, hss⟩ :=
    hlayout.exists_part sp hsp
  rcases hown with hf | hown
  · simp [hok] at hf
  rcases hown.direct hstraight hy with hf | hback | hroot | ⟨x, hne, hcalls⟩ | ⟨sp', hsp', hexpr, hcut⟩
  · simp [hok] at hf
  · exact absurd (Relation.TransGen.head' hy hback) (hacyclic _)
  · exact absurd hroot honly.1
  · rcases hcalls with hchild | ⟨_, _, _, hkind⟩
    · exact absurd (honly.2 x hchild) hne
    · exact absurd hkind hblock
  · have hbounds := hpart.span_bounds hsp'
    refine ⟨sp', hss sp' hsp', hexpr, hbounds.1, by omega, fun {a t} hf hle hlt => hcut ?_ hlt⟩
    obtain ⟨x, hx, d, hd, rfl⟩ := hf
    rw [hcode] at hx
    refine ⟨x, ?_, d, hd, rfl⟩
    rw [hstart]
    exact at_part hx (by omega) (by omega)

section Feeds

variable {v a m p : ExprId} (hsp : sp ∈ s.spans) (hfeeds : cx.tree.Feeds sp.expr v a m p)
  {function : String} (hunit : cx.tree.IsUnitCall sp.expr function)
include hsp hfeeds hunit

/-- A producer is finished before the call it feeds. -/
theorem exists_producer : ∃ sp' ∈ s.spans, sp'.expr = p ∧ sp'.stop < sp.stop := by
  obtain ⟨spv, hspv, rfl, -, hv⟩ := h.exists_child hok hacyclic hsp (.inl ⟨_, hunit⟩) hfeeds.value
  obtain ⟨spa, hspa, rfl, ha, -⟩ := h.exists_child hok hacyclic hspv hfeeds.value_isStraight hfeeds.assign
  obtain ⟨spm, hspm, rfl, hm, -⟩ := h.exists_child hok hacyclic hspa hfeeds.assign_isStraight hfeeds.cache
  obtain ⟨spp, hspp, hexpr, hp, -⟩ :=
    h.exists_child hok hacyclic hspm hfeeds.cache_isStraight hfeeds.producer
  have := hv ⟨_, hunit⟩
  exact ⟨spp, hspp, hexpr, by omega⟩

/-- A producer without other uses has its code in that of the call it feeds. -/
theorem leads_producer {function' : String} (hp : cx.tree.IsUnitCall p function')
    (hv : cx.tree.OnlyBelow v sp.expr) (ha : cx.tree.OnlyBelow a v) (hm : cx.tree.OnlyBelow m a)
    (hpm : cx.tree.OnlyBelow p m) :
    ∃ sp' ∈ s.spans, sp'.expr = p ∧ Leads s.code.instructions sp sp' := by
  obtain ⟨kind, hkind, hvalue⟩ := hfeeds.isValue
  have hvBlock : cx.tree.kind v ≠ .ok .block := by
    rw [hkind]
    rintro ⟨⟩
    cases hvalue
  obtain ⟨spv, hspv, rfl, lv⟩ :=
    h.exists_leads hok hacyclic hsp (.inl ⟨_, hunit⟩) hfeeds.value hv hvBlock
  obtain ⟨spa, hspa, rfl, la⟩ := h.exists_leads hok hacyclic hspv hfeeds.value_isStraight hfeeds.assign ha
    (by rw [hfeeds.isAssign]; rintro ⟨⟩)
  obtain ⟨spm, hspm, rfl, lm⟩ := h.exists_leads hok hacyclic hspa hfeeds.assign_isStraight hfeeds.cache hm
    (by rw [hfeeds.isCache]; rintro ⟨⟩)
  obtain ⟨spp, hspp, hexpr, lp⟩ := h.exists_leads hok hacyclic hspm hfeeds.cache_isStraight
    hfeeds.producer hpm (by rw [hp.1]; rintro ⟨⟩)
  exact ⟨spp, hspp, hexpr, lv.trans (la.trans (lm.trans lp))⟩

end Feeds

omit hok hacyclic

/-- Where the code of a call lies in that of another, every path to the end of the other one comes
through the call. -/
theorem dominates (hsp : sp ∈ s.spans) (hleads : Leads s.code.instructions sp sp') {q k : Nat}
    (hq : sp'.stop = q + 1) (hstart : sp'.start ≤ q) (hk : sp.stop = k + 1) (hqk : q < k)
    (hover : ∀ {a t}, Forward 0 s.code.instructions a t → sp'.start ≤ a → a < sp'.stop → t ≤ q)
    (hentry : ¬ cx.tree.HasEntry sp.expr) : s.code.Dominates q k := by
  obtain ⟨ms, hlayout⟩ := h.layout
  have hstarts := hleads.start_le
  intro front hpath
  have hfirst : ∀ a ∈ (front ++ [k]).head?, a = q ∨ s.code.Apart q k a := by
    intro a ha
    obtain ⟨name, a', hmem, hhead⟩ := hpath.entry
    obtain rfl : a' = a := Option.some.inj (hhead.symm.trans ha)
    rcases h.entered hmem hsp with hle | hle | hbelow
    · by_cases heq : a' = q
      · exact .inl heq
      · exact .inr (.inl (by omega))
    · -- A loop that ends behind the code does not start inside it.
      refine .inr (.inr ⟨by omega, fun {j u} hb hj hu => ?_⟩)
      have := hlayout.entered.backward sp hsp hb (by omega)
      omega
    · exact absurd hbelow hentry
  rcases hpath.mem_or_jumps_over hlayout.loops hlayout.lands hqk hfirst with hmem | ⟨i, j, hij, hjump⟩
  · exact hmem
  · exfalso
    have hflow : s.code.Flows i j := by
      simpa using List.IsChain.infix hpath.flows hij
    rcases hflow.cases with hnext | hf | hb
    · omega
    · -- The jump starts in front of both codes, between their starts, or in that of the producer.
      by_cases hc : i < sp.start
      · have := hlayout.entered.forward sp hsp hf hc
        omega
      by_cases hp : i < sp'.start
      · have := hleads.direct hf (by omega) hp
        omega
      · have := hover hf (by omega) (by omega)
        omega
    · have := hlayout.lands.loop hb
      omega

end Lowered
end Context
end Lowering

/-! ## Compiled programs -/

variable {t : Tree} {env : Environment} {options : CompileOptions} {program : Program}
  {report : Report}

/-- Without errors nothing failed. -/
theorem Lowering.State.Sound.failed_eq_nil {s : Lowering.State} (h : s.Sound t env) (herrors : s.report.errors = 0) :
    s.failed = [] := by
  by_cases hfailed : s.failed = []
  · exact hfailed
  · have := h.reported hfailed
    omega

theorem Tree.compilePartial_of_compile (h : t.compile env options = .ok ⟨.ok program, report⟩) :
    ∃ report', t.compilePartial env options = .ok ⟨.ok (program, 0), report'⟩ := by
  unfold compile at h
  obtain ⟨⟨result, report'⟩, hpartial, h⟩ := Checked.bind_eq_ok.1 h
  have hresult : result = .ok (program, 0) := by
    dsimp only at h
    split at h
    · cases h; rfl
    · cases h
    · cases h
  subst hresult
  exact ⟨report', hpartial⟩

/-- A tree without issues that is lowered without errors compiles to the program of that state. -/
theorem Tree.exists_compile_of_lowered {s : Lowering.State} (hissues : t.issues env = .ok [])
    (hs : t.lowered env options = .ok s) (herrors : s.report.errors = 0) :
    ∃ report, t.compile env options = .ok ⟨.ok (s.program env.externals), report⟩ := by
  have hpartial := compilePartial_eq_ok_iff.2 ⟨hissues, s, hs, rfl, rfl, rfl⟩
  rw [herrors] at hpartial
  exact ⟨_, by rw [compile, hpartial]; rfl⟩

/-- A compilation without errors has the state behind it, and nothing failed there. -/
theorem Tree.exists_lowered_of_compile (h : t.compile env options = .ok ⟨.ok program, report⟩) :
    ∃ s sharing, t.lowered env options = .ok s ∧ program = s.program env.externals ∧ s.failed = [] ∧
      Lowering.Context.Lowered ⟨t, env, options, sharing, .emit⟩ s := by
  obtain ⟨report', hpartial⟩ := compilePartial_of_compile h
  obtain ⟨s, sharing, hs, hp, herrors, hlowered⟩ := exists_lowered hpartial
  exact ⟨s, sharing, hs, hp, hlowered.sound.failed_eq_nil herrors.symm, hlowered⟩

/-- Where children come behind their parents, no expression is below itself. -/
theorem Tree.childrenAcyclic_of_lt (h : ∀ e c, t.IsChild e c → e < c) : t.ChildrenAcyclic := by
  intro e hcycle
  have hlt : ∀ {y}, Relation.TransGen t.IsChild e y → e < y := by
    intro y hy
    induction hy with
    | single hc => exact h _ _ hc
    | tail _ hc ih => exact Nat.lt_trans ih (h _ _ hc)
  exact Nat.lt_irrefl e (hlt hcycle)

theorem childrenAcyclic_forkTree : forkTree.ChildrenAcyclic :=
  Tree.childrenAcyclic_of_lt (Tree.forall_isChild.2 (by decide))

theorem feeds_forkTree {c v a m p : ExprId} (h : [c, v, a, m, p] ∈
    [[12, 13, 14, 15, 17], [17, 18, 19, 20, 23]]) : forkTree.Feeds c v a m p := by
  simp only [List.mem_cons, List.cons.injEq, and_true, List.not_mem_nil, or_false] at h
  rcases h with ⟨rfl, rfl, rfl, rfl, rfl⟩ | ⟨rfl, rfl, rfl, rfl, rfl⟩ <;>
    exact ⟨⟨_, rfl, by decide⟩, ⟨_, rfl, rfl⟩, ⟨_, rfl, by decide⟩, rfl, ⟨_, rfl, by decide⟩, rfl,
      ⟨_, rfl, by decide⟩⟩

/-- The code of the calls, innermost last. -/
def forkSpans : List Lowering.Span := [⟨12, 5, 6⟩, ⟨7, 1, 4⟩, ⟨17, 1, 3⟩, ⟨23, 1, 2⟩]

theorem compile_forkTree : ∃ program report s,
    forkTree.compile forkEnv {} = .ok ⟨.ok program, report⟩ ∧ forkTree.lowered forkEnv {} = .ok s ∧
      program = s.program [] ∧ s.code.instructions = forkCode ∧ s.code.entries.toList = [("Go", 0)] ∧
      ∀ sp, sp ∈ forkSpans ↔ sp ∈ s.spans ∧ sp.expr ∈ [7, 12, 17, 23] := by
  obtain ⟨s, hs, hcode, hentries, hspans, herrors⟩ := lowered_forkTree
  obtain ⟨report, hcompile⟩ := Tree.exists_compile_of_lowered issues_forkTree hs herrors
  refine ⟨_, report, s, hcompile, hs, rfl, hcode, hentries, fun sp => ?_⟩
  rw [forkSpans, ← hspans, List.mem_filter, decide_eq_true_iff]

theorem not_hasEntry_forkTree : ¬ forkTree.HasEntry 17 := by
  have hchild : ∀ e c, forkTree.IsChild e c → forkTree.kind c ≠ .ok .entry :=
    Tree.forall_isChild.2 (by decide)
  rintro ⟨y, hreach, hkind⟩
  cases hreach with
  | refl => exact absurd hkind (by decide)
  | tail _ hc => exact hchild _ _ hc hkind

end NodeGraph
