import Mathlib.Data.List.Nodup
import NodeGraph.Compile
import NodeGraph.Proofs.Lowering.Expr
import NodeGraph.Proofs.Lowering.Locals

/-!
# A pass over the tree

Lowering an expression once gives its code a span and keeps the state of the walk. The walk never runs
out of depth: the expressions around the current one have all been met, each of them once, and there
are fewer than the depth it starts with. So both passes over the tree end, and what the emit pass leaves
behind is `Lowered`: sound storage, code with a layout, and spans in the order of their use.
-/
namespace NodeGraph
namespace Lowering.Context

variable {cx : Context} {F : Fault → Prop} {depth : Nat} {e : ExprId} {s s' s'' : State}
  {lower : ExprId → Step Unit} {stack : CallStack} {C : ExprId → Prop} {block : List Instruction}
  {new : List Span} {span sp : Span}

/-! ## Under a call stack -/

theorem Within.under (h : cx.Within depth e s) (hstack : stack.ExistsIn cx.tree.graph) :
    cx.Within depth e { s with callStack := stack } :=
  { h with sound := { h.sound with callStack := hstack }, pending := fun hy => h.pending hy }

/-- What is lowered under another call stack is lowered, once the call stack is back. -/
theorem Lowers.under (h : cx.Lowers C { s with callStack := stack } s') :
    cx.Lowers C s { s' with callStack := s.callStack } :=
  { h with
    callStack := rfl
    pending := fun hy => h.pending hy
    fed := fun hsp => (h.fed hsp).imp_right (.imp_right (.mono (fun _ hf => hf) fun _ hs => hs))
    laid := by
      obtain ⟨block, new, ms, happ, hlay⟩ := h.laid
      exact ⟨block, new, ms, ⟨happ.code, happ.spans⟩, layout_mono hlay { State.Retains.refl s' with }⟩ }

theorem Done.earlier (h : cx.Done e s' s'') (hl : cx.Lowers C s s') (hl' : cx.Lowers C s' s'') :
    cx.Done e s s'' := by
  intro hstraight
  obtain ⟨n, hstart, hstop, hserved, hcall⟩ := h hstraight
  refine ⟨n, Nat.le_trans hl.size_le hstart, hstop, fun hy => (hserved hy).earlier hl hl', ?_⟩
  intro function hunit hpass
  obtain ⟨hends, hover⟩ := hcall hunit hpass
  refine ⟨hends, fun {a t} hf ha => ?_⟩
  by_cases hbefore : s'.code.size ≤ a
  · exact hover hf hbefore
  · exact Nat.le_trans (hl.forward_le ha (hl'.forward_of_lt (by omega) hf)) hstart

/-- The code of an expression looks as its kind asks for, as long as it stays what it is. -/
def Forms (cx : Context) (e : ExprId) (s s' : State) : Prop :=
  cx.pass = .emit → Ensures s s' fun s'' => ∀ kind, cx.tree.kind e = .ok kind →
    cx.Formed s'' e s.visited kind s.code.size s'.code.size

/-- A failure is reported, now or before. -/
theorem runs_fail (hw : cx.Within depth e s) {error : LowerError}
    (herror : error = .dependencyFailed → s.failed ≠ []) :
    cx.Runs F depth e s (fail e error) fun _ s' => e ∈ s'.failed := by
  unfold fail
  have hfail : ∀ report : Report, 0 < report.errors →
      cx.Within depth e { s with failed := e :: s.failed, report := report } ∧
        cx.Lowers (cx.tree.Involves e) s { s with failed := e :: s.failed, report := report } ∧
        e ∈ e :: s.failed := by
    intro report hreport
    refine ⟨?_, ?_, by simp⟩
    · exact { hw with
        sound := { hw.sound with reported := fun _ => hreport }
        pending := fun hy => hw.pending hy }
    · exact { Lowers.refl s with
        failed := fun _ hf => List.mem_cons_of_mem _ hf
        pending := fun hy => hy
        fed := .inl
        laid := ⟨[], [], _, ⟨by simp, by simp⟩, .nil⟩ }
  refine Step.ends_bind.2 (Step.ends_modify.2 ?_)
  split
  · exact Step.ends_modify.2 (hfail _ (Nat.succ_pos _))
  · next hreported =>
    have heq : error = .dependencyFailed := by
      cases error <;> simp_all [LowerError.isReported]
    exact Step.ends_pure.2 (hfail s.report (hw.sound.reported (herror heq)))

theorem runs_lowerUnder (hr : cx.Ready F) (ha : cx.Able F depth lower) (hw : cx.Within depth e s) :
    cx.Runs F depth e s (cx.lowerUnder lower e) fun _ s' =>
      cx.Fresh e s → e ∈ s'.failed ∨ cx.Done e s s' ∧ cx.Forms e s s' := by
  obtain ⟨x, hx⟩ := Tree.exists_expr hw.lt
  unfold lowerUnder
  refine Step.ends_get_bind.2 ?_
  refine Runs.ok_bind (Tree.expr_eq_ok.2 hx) ?_
  have hexists : ((x.proxy.map Proxy.callStack).getD s.callStack).ExistsIn cx.tree.graph := by
    cases hp : x.proxy with
    | some p => exact Proxy.callStack_existsIn (hr.tree.proxy hx hp)
    | none => exact hw.sound.callStack
  generalize (x.proxy.map Proxy.callStack).getD s.callStack = stack at hexists ⊢
  refine (runs_enterFrames hr hw hexists).bind fun _ s1 w1 l1 h1 => ?_
  refine (runs_initializeLocals hr w1 hexists).bind fun _ s2 w2 l2 h2 => ?_
  have hcall : s.callStack = s2.callStack := by rw [l2.callStack, l1.callStack]
  have hinit := h1.trans h2
  have hfresh2 : cx.Fresh e s → cx.Fresh e s2 := fun h y hy => h (by rwa [hinit.visited] at hy)
  have l12 := l1.trans l2
  have hexpr := emits_lowerExpr hr ha (w2.under hexists) hx
  unfold Emits Attempt.Ends at hexpr
  rw [hcall]
  refine Step.ends_bind.2 (Step.ends_modify.2 (Step.ends_bind.2 (hexpr.mono ?_)))
  rintro (error | _) s3 ⟨w3, l3, h3⟩
  · refine Step.ends_bind.2 (Step.Ends.mono (runs_fail w3 h3) ?_)
    rintro _ s4 ⟨w4, l4, h4⟩
    exact Step.ends_modify.2 ⟨w4.under w2.sound.callStack, (l3.trans l4).under, fun _ => .inl h4⟩
  · refine Step.ends_modify.2 ⟨w3.under w2.sound.callStack, l3.under, fun hfresh => .inr ⟨?_, ?_⟩⟩
    · have hdone : cx.Done e s2 { s3 with callStack := s2.callStack } := h3.1 (hfresh2 hfresh)
      exact hdone.earlier l12 l3.under
    · intro hpass block new happ s'' hle hcode kind hkind
      rw [Tree.kind_eq hx] at hkind
      cases hkind
      -- The code in front initializes locals.
      have hret : s3.Retains { s3 with callStack := s2.callStack } := { State.Retains.refl s3 with }
      have hformed : Ensures s2 { s3 with callStack := s2.callStack } fun s'' =>
          cx.Formed s'' e s2.visited x.kind s2.code.size s3.code.size := fun _ _ happ' _ hle' hcode' =>
        h3.2 hpass ⟨happ'.code, happ'.spans⟩ (hret.trans hle') hcode'
      rw [← hinit.visited]
      refine ((hformed.behind l12 l3.under) happ hle hcode).widen ?_
      obtain ⟨front, hfront, hcopies⟩ := hinit.code
      obtain ⟨rest, _, _, hrest, -⟩ := l3.under.laid
      have hsize : s2.code.size = s.code.size + front.length := by simp [Bytecode.size, hfront]
      have hblock : block = front ++ rest := by
        refine List.append_cancel_left (happ.code.symm.trans ?_)
        rw [hrest.code, hfront, List.append_assoc]
      rw [hblock] at hcode
      rw [hsize]
      exact hcode.left.copies hcopies

/-! ## One expression -/

theorem Appends.forward (happ : Appends s s' block new) {a t : Nat} (h : Forward s.code.size block a t) :
    Forward 0 s'.code.instructions a t := by
  rw [happ.code, forward_append, Nat.zero_add]
  exact .inr h

/-- The code of an expression that is done is its own. -/
theorem own_of_done (hw : cx.Within depth e s) (hfresh : cx.Fresh e s) {older : List ExprId}
    (hmet : s.visited = e :: older) (horder : s.visited <:+ s'.visited) (happ : Appends s s' block new)
    (h : cx.Done e s s') (hforms : cx.Forms e s s') : cx.OwnCode s' s.code.size e block new where
  formed hpass := by
    refine ⟨older, hmet ▸ horder, fun hle hcode => ?_⟩
    rw [← happ.size, ← hmet]
    exact hforms hpass happ hle hcode
  executes {function} hunit hpass := by
    obtain ⟨n, hstart, -, -, hcall⟩ := h (.inl ⟨_, hunit⟩)
    obtain ⟨⟨front, number, operands, hcode, hlen, hindex⟩, hover⟩ := hcall hunit hpass
    have hsplit : ∃ front', front = s.code.instructions ++ front' ∧
        block = front' ++ [.execute number operands] := by
      rw [happ.code] at hcode
      rcases List.append_eq_append_iff.1 hcode with hsplit | ⟨rest, hfront, hblock⟩
      · exact hsplit
      · -- The call is the only instruction.
        have hnil : rest = [] := by
          have hsize : s.code.size = front.length + rest.length := by
            rw [Bytecode.size, hfront, List.length_append]
          exact List.length_eq_zero_iff.1 (by omega)
        rw [hnil] at hblock hfront
        exact ⟨[], by simpa using hfront.symm, hblock.symm⟩
    obtain ⟨front', hfront, hblock⟩ := hsplit
    refine ⟨front', number, operands, hblock, hindex, fun {a t} hf => ?_⟩
    have hle : t ≤ n := hover (happ.forward hf) hf.le
    rw [← hlen, hfront, List.length_append] at hle
    exact hle
  direct hstraight {y} hy := by
    obtain ⟨n, -, -, hserved, -⟩ := h hstraight
    rcases hserved hy with hf | hback | ⟨sp, hsp, rfl, -, hother⟩
    · exact .inl hf
    · exact .inr (.inl hback)
    rcases hother with hroot | hcaller | ⟨hstart, -, hcut⟩
    · exact .inr (.inr (.inl hroot))
    · exact .inr (.inr (.inr (.inl hcaller)))
    rw [happ.spans] at hsp
    rcases List.mem_append.1 hsp with hsp | hsp
    · refine .inr (.inr (.inr (.inr ⟨sp, hsp, rfl, fun {a t} hf hlt => ?_⟩)))
      exact hcut (happ.forward hf) hf.le hlt
    · -- Code that was there before was lowered for another expression.
      rcases hfresh (hw.located hsp).1 with heq | hroot | hcaller
      · exact .inr (.inl (heq ▸ .refl))
      · exact .inr (.inr (.inl hroot))
      · exact .inr (.inr (.inr (.inl hcaller)))

/-- The children of an expression that is done were finished before it. -/
theorem fed_of_done (h : cx.Done e s s') (hspan : span = ⟨e, s.code.size, s'.code.size⟩) :
    cx.Fed { s' with spans := span :: s'.spans } span := by
  subst hspan
  refine .inr fun hstraight y hy => ?_
  obtain ⟨n, -, hn, hserved, hcall⟩ := h hstraight
  rcases hserved hy with hf | hback | ⟨sp, hsp, hexpr, hstop, -⟩
  · exact .inl hf
  · exact .inr (.inl hback)
  refine .inr (.inr ⟨sp, List.mem_cons_of_mem _ hsp, hexpr, Nat.le_trans hstop hn, ?_⟩)
  rintro ⟨function, hunit⟩ hpass
  obtain ⟨⟨front, number, operands, hcode, hlen, -⟩, -⟩ := hcall hunit hpass
  have hsize : s'.code.size = n + 1 := by
    rw [Bytecode.size, hcode, List.length_append, hlen]
    rfl
  show sp.stop < s'.code.size
  omega

section Once

variable {z : ExprId}

/-- Meeting an expression for the first time takes one from the depth. -/
theorem Walk.enter (hw : cx.Walk (depth + 1) s) (hnew : z ∉ s.visited)
    (hlt : z < cx.tree.exprs.length) (hcalled : z ∈ cx.tree.roots ∨ ∃ x ∈ s.visited, cx.tree.Calls x z)
    (hpending : ∀ {y}, s.Pending y → Relation.ReflTransGen cx.tree.IsChild y z) :
    cx.Within depth z { s with visited := z :: s.visited } where
  sound := { hw.sound with }
  nodup := List.nodup_cons.2 ⟨hnew, hw.nodup⟩
  inRange hy := by
    rcases List.mem_cons.1 hy with rfl | hy
    · exact hlt
    · exact hw.inRange hy
  room := by
    have := hw.room
    simp only [List.length_cons]
    omega
  located hsp := ⟨List.mem_cons_of_mem _ (hw.located hsp).1, (hw.located hsp).2⟩
  distinct := hw.distinct
  entered := hw.entered
  called {y} hy := by
    have hbefore : (y ∈ cx.tree.roots ∨ ∃ x ∈ s.visited, cx.tree.Calls x y) := by
      rcases List.mem_cons.1 hy with rfl | hy
      · exact hcalled
      · exact hw.called hy
    exact hbefore.imp_right fun ⟨x, hx, hcalls⟩ => ⟨x, List.mem_cons_of_mem _ hx, hcalls⟩
  current := List.mem_cons_self
  pending {y} hy := by
    rcases List.mem_cons.1 hy.1 with rfl | hmem
    · exact .refl
    · exact hpending ⟨hmem, hy.2⟩

/-- Everything met before `z` was met for another expression. -/
theorem Walk.fresh (hw : cx.Walk depth s) (hnew : z ∉ s.visited) :
    cx.Fresh z { s with visited := z :: s.visited } := by
  intro y hy
  rcases List.mem_cons.1 hy with rfl | hy
  · exact .inl rfl
  · refine .inr ((hw.called hy).imp_right fun ⟨x, hx, hcalls⟩ => ⟨x, fun heq => hnew (heq ▸ hx), hcalls⟩)

/-- An expression is finished when its code is noted. -/
theorem Within.leave (hw : cx.Within depth z s) (hz : ∀ sp ∈ s.spans, sp.expr ≠ z) {start : Nat}
    (hentries : ∀ entry ∈ s.code.entries.toList, entry.2 ≤ start ∨ cx.tree.HasEntry z) :
    cx.Walk (depth + 1) { s with spans := ⟨z, start, s.code.size⟩ :: s.spans } :=
  { hw with
    sound := { hw.sound with }
    room := Nat.lt_succ_of_lt hw.room
    located := fun hsp => by
      rcases List.mem_cons.1 hsp with rfl | hsp
      · exact ⟨hw.current, Nat.le_refl _⟩
      · exact hw.located hsp
    distinct := by
      refine List.nodup_cons.2 ⟨fun hmem => ?_, hw.distinct⟩
      obtain ⟨sp, hsp, hexpr⟩ := List.mem_map.1 hmem
      exact hz sp hsp hexpr
    entered := fun {entry} hentry => by
      refine ⟨(hw.entered hentry).1, fun hsp => ?_⟩
      rcases List.mem_cons.1 hsp with rfl | hsp
      · exact (hentries entry hentry).imp_right .inr
      · exact (hw.entered hentry).2 hsp }

/-- Lowering `z` by lowering what it calls, and noting its code. -/
theorem Lowers.leave (hok : z ∉ s.failed) (hnew : z ∉ s.visited)
    (hl : cx.Lowers (cx.tree.Involves z) { s with visited := z :: s.visited } s')
    (hspan : span = ⟨z, s.code.size, s'.code.size⟩) (hfed : cx.Fed { s' with spans := span :: s'.spans } span)
    (hown : ∀ {block new}, Appends s s' block new → cx.Own s' s.code.size z block new) :
    cx.Lowers (· = z) s { s' with spans := span :: s'.spans } where
  storage := hl.storage
  callStack := hl.callStack
  failed := hl.failed
  order := (List.suffix_cons _ _).trans hl.order
  skipped hy := by
    rcases hl.skipped hy with hy | hy
    · rcases List.mem_cons.1 hy with rfl | hy
      · exact .inr hok
      · exact .inl hy
    · exact .inr hy
  spans := fun sp hsp => List.mem_cons_of_mem _ (hl.spans hsp)
  operands := hl.operands
  pending {y} hy := by
    have hz : y ≠ z := fun heq => hy.2 ⟨span, List.mem_cons_self, by rw [hspan, heq]⟩
    have hpending := hl.pending ⟨hy.1, fun ⟨sp, hsp, hexpr⟩ => hy.2 ⟨sp, List.mem_cons_of_mem _ hsp, hexpr⟩⟩
    exact ⟨(List.mem_cons.1 hpending.1).resolve_left hz, hpending.2⟩
  met {y} hy := by
    have hz : z ∈ s'.visited := hl.visited List.mem_cons_self
    rcases hl.met hy with hmem | hcalls | ⟨x, hx, hout, hcalls⟩
    · exact (List.mem_cons.1 hmem).symm.imp_right .inl
    · rcases hcalls with rfl | hcalls
      · exact .inr (.inl rfl)
      · exact .inr (.inr ⟨z, hz, hnew, hcalls⟩)
    · exact .inr (.inr ⟨x, hx, fun hmem => hout (List.mem_cons_of_mem _ hmem), hcalls⟩)
  below {y} hy := by
    rcases hl.below hy with hmem | ⟨x, hx, hbelow⟩
    · rcases List.mem_cons.1 hmem with rfl | hmem
      · exact .inr ⟨_, rfl, .refl⟩
      · exact .inl hmem
    · exact .inr ⟨z, rfl, hx.reflTransGen.trans hbelow⟩
  fed {sp} hsp := by
    rcases List.mem_cons.1 hsp with rfl | hsp
    · exact .inr ⟨by rw [hspan]; exact hnew, hfed⟩
    · rcases hl.fed hsp with hsp | ⟨hout, hsp⟩
      · exact .inl hsp
      · exact .inr ⟨fun hmem => hout (List.mem_cons_of_mem _ hmem),
          Fed.mono (s := s') (fun _ hf => hf) (fun _ hmem => List.mem_cons_of_mem _ hmem) hsp⟩
  size_le := hl.size_le
  entries hentry := (hl.entries hentry).imp_right fun ⟨hstart, hstop, y, hy, hbelow⟩ =>
    ⟨hstart, hstop, z, rfl, hy.hasEntry hbelow⟩
  silent := hl.silent
  openBlocks := hl.openBlocks
  laid := by
    obtain ⟨block, new, ms, happ, hlay⟩ := hl.laid
    have happ' : Appends s s' block new := ⟨happ.code, happ.spans⟩
    have hret : s'.Retains { s' with spans := span :: s'.spans } :=
      { State.Retains.refl s' with spans := fun _ hsp => List.mem_cons_of_mem _ hsp }
    refine ⟨block, span :: new, [s.code.size, s.code.size + block.length],
      ⟨happ.code, by rw [happ.spans]; rfl⟩, ?_⟩
    rw [happ'.size] at hspan
    rw [hspan] at hret ⊢
    exact layout_mono (Layout.expr z hlay (hown happ')) hret

end Once

theorem ends_lowerOnce (hr : cx.Ready F) (ha : cx.Able F depth lower) (hw : cx.Walk (depth + 1) s)
    {z : ExprId} (hlt : z < cx.tree.exprs.length)
    (hcalled : z ∈ cx.tree.roots ∨ ∃ x ∈ s.visited, cx.tree.Calls x z)
    (hpending : ∀ {y}, s.Pending y → Relation.ReflTransGen cx.tree.IsChild y z) :
    Step.Ends F s (cx.lowerOnce lower z) fun _ s' =>
      cx.Walk (depth + 1) s' ∧ cx.Lowers (· = z) s s' ∧ Reached z s s' := by
  unfold lowerOnce
  refine Step.ends_get_bind.2 ?_
  split
  · next hskip => exact Step.ends_pure.2 ⟨hw, .refl s, .inl ⟨rfl, hskip⟩⟩
  · next hskip =>
    have hok : z ∉ s.failed := fun h => hskip (.inl h)
    have hnew : z ∉ s.visited := fun h => hskip (.inr h)
    have hwithin := hw.enter hnew hlt hcalled hpending
    have hfresh : cx.Fresh z { s with visited := z :: s.visited } := hw.fresh hnew
    refine Step.ends_bind.2 (Step.ends_set.2 (Step.ends_bind.2 ?_))
    refine Step.Ends.mono (runs_lowerUnder hr ha hwithin) ?_
    rintro _ s' ⟨w, l, hdone⟩
    have hz : ∀ sp ∈ s'.spans, sp.expr ≠ z := by
      intro sp hsp heq
      rcases l.fed hsp with hsp | ⟨hout, -⟩
      · exact hnew (heq ▸ (hw.located hsp).1)
      · exact hout (heq ▸ List.mem_cons_self)
    have hentries : ∀ entry ∈ s'.code.entries.toList,
        entry.2 ≤ s.code.size ∨ cx.tree.HasEntry z := by
      intro entry hentry
      rcases l.entries hentry with hentry | ⟨-, -, y, hy, hbelow⟩
      · exact .inl (hw.entered hentry).1
      · exact .inr (hy.hasEntry hbelow)
    refine Step.ends_modify.2 ⟨w.leave hz hentries, l.leave hok hnew rfl ?_ ?_, .inr List.mem_cons_self⟩
    · rcases hdone hfresh with hf | ⟨hdone, -⟩
      · exact .inl hf
      · exact fed_of_done hdone rfl
    · intro block new happ
      have happ' : Appends { s with visited := z :: s.visited } s' block new := ⟨happ.code, happ.spans⟩
      rcases hdone hfresh with hf | ⟨hdone, hforms⟩
      · exact .inl hf
      · have hown := own_of_done hwithin hfresh rfl l.order happ' hdone hforms
        exact .inr hown

/-! ## The walk -/

theorem Walk.length_le (hw : cx.Walk depth s) : s.visited.length ≤ cx.tree.exprs.length := by
  have hsub : s.visited ⊆ List.range cx.tree.exprs.length := fun y hy =>
    List.mem_range.2 (hw.inRange hy)
  have hle := (List.subperm_of_subset hw.nodup hsub).length_le
  rwa [List.length_range] at hle

theorem able_lowerWithin (hr : cx.Ready F) (depth : Nat) :
    cx.Able F depth (cx.lowerWithin depth) := by
  induction depth with
  | zero =>
    -- Every expression around the current one has been met: there are not so many.
    intro e z s hw _
    have := hw.room
    have := hw.length_le
    omega
  | succ depth ih =>
    intro e z s hw hcalls
    have hlt : z < cx.tree.exprs.length := by
      rcases hcalls with hchild | ⟨v, -, hchild, -⟩ <;> exact hr.tree.children hchild
    have hpending : ∀ {y}, s.Pending y → Relation.ReflTransGen cx.tree.IsChild y z := fun hy =>
      (hw.pending hy).trans hcalls.transGen.to_reflTransGen
    refine Step.Ends.mono (ends_lowerOnce hr ih hw.toWalk hlt (.inr ⟨e, hw.current, hcalls⟩) hpending) ?_
    rintro _ s' ⟨w, l, hz⟩
    refine ⟨⟨w, l.visited hw.current, fun hy => hw.pending (l.pending hy)⟩, l, hz⟩

/-- The walk starts with nothing met. -/
theorem walk_start (hs : s.Sound cx.tree cx.env) (hvisited : s.visited = []) (hspans : s.spans = [])
    (hcode : s.code = {}) : cx.Walk (cx.tree.exprs.length + 1) s where
  sound := hs
  nodup := by simp [hvisited]
  inRange hy := by simp [hvisited] at hy
  room := by omega
  located hsp := by simp [hspans] at hsp
  called hy := by simp [hvisited] at hy
  distinct := by simp [hspans]
  entered hentry := by
    rw [hcode] at hentry
    exact (List.not_mem_nil hentry).elim

/-- A pass over the tree, from the state `s0` in which nothing is met, finishes all it meets. -/
theorem ends_lowerRoots (hr : cx.Ready F) (hs : s.Sound cx.tree cx.env) (hcode : s.code = {}) {s0 : State}
    (hs0 : s0 = { s with visited := [], spans := [], frames := [], callStack := [] }) :
    Step.Ends F s cx.lowerRoots fun _ s' => cx.Walk (cx.tree.exprs.length + 1) s' ∧
      cx.Lowers (· ∈ cx.tree.roots) s0 s' ∧ ∀ {y}, ¬ s'.Pending y := by
  have hsound : s0.Sound cx.tree cx.env := by
    rw [hs0]
    exact { hs with callStack := fun _ hsite => by cases hsite }
  have hvisited : s0.visited = [] := by rw [hs0]
  have hnone : ∀ {y}, ¬ s0.Pending y := fun hy => by simpa [hvisited] using hy.1
  have hstart := walk_start hsound hvisited (by rw [hs0]) (by rw [hs0]; exact hcode)
  unfold lowerRoots
  refine Step.ends_bind.2 (Step.ends_modify.2 ?_)
  rw [← hs0]
  refine Step.ends_forM (fun _ s' => cx.Walk (cx.tree.exprs.length + 1) s' ∧
    cx.Lowers (· ∈ cx.tree.roots) s0 s' ∧ ∀ {y}, ¬ s'.Pending y) ⟨hstart, .refl s0, hnone⟩ ?_
  rintro done root rest hroots s1 ⟨w1, l1, h1⟩
  have hroot : root ∈ cx.tree.roots := by simp [hroots]
  refine Step.Ends.mono (ends_lowerOnce hr (able_lowerWithin hr _) w1 (hr.tree.roots root hroot)
    (.inl hroot) fun hy => absurd hy h1) ?_
  rintro _ s2 ⟨w2, l2, -⟩
  exact ⟨w2, l1.trans (l2.mono fun y hy => hy ▸ hroot), fun hy => h1 (l2.pending hy)⟩

/-! ## Both passes -/

theorem sound_init {t : Tree} {env : Environment} : State.Sound t env {} where
  keyed := by simp
  operands := by simp
  pinPaths _ he := (List.not_mem_nil he).elim
  mirrors _ he := (List.not_mem_nil he).elim
  watched _ he := (List.not_mem_nil he).elim
  code _ hi := (List.not_mem_nil hi).elim
  callStack _ hsite := (List.not_mem_nil hsite).elim
  reported h := absurd rfl h

theorem ends_checkWatches (hr : cx.Ready F) (hs : s.Sound cx.tree cx.env) :
    Step.Ends F s cx.checkWatches fun _ s' => s'.Sound cx.tree cx.env ∧ Quiet s s' := by
  unfold checkWatches
  have hfind : ∀ path, ∃ r, cx.tree.graph.findByPath (barePath path) = .ok r := fun path =>
    hr.tree.graph.exists_findByPath (barePath path)
  generalize cx.tree.graph.findByPath = find at hfind ⊢
  refine Step.ends_forM (fun _ s' => s'.Sound cx.tree cx.env ∧ Quiet s s') ⟨hs, .refl s⟩ ?_
  rintro done path rest - s1 ⟨h1, q1⟩
  obtain ⟨r, hfound⟩ := hfind path
  refine Step.ends_bind.2 (Step.ends_lift.2 ?_)
  rw [hfound, Checked.ends_ok]
  cases r with
  | some _ => exact ⟨h1, q1⟩
  | none => exact (ends_reportWarning h1 _ _).mono fun _ _ h => ⟨h.1, q1.trans h.2⟩

/-- What the emit pass leaves behind. -/
structure Lowered (cx : Context) (s : State) : Prop where
  emitted : cx.pass = .emit
  sound : s.Sound cx.tree cx.env
  layout : ∃ ms, Layout (cx.Own s) 0 s.code.instructions s.spans ms
  fed : ∀ {sp}, sp ∈ s.spans → cx.Fed s sp
  nodup : s.visited.Nodup
  located : ∀ {sp}, sp ∈ s.spans → sp.expr ∈ s.visited
  distinct : (s.spans.map Span.expr).Nodup
  entered : ∀ {entry}, entry ∈ s.code.entries.toList → ∀ {sp}, sp ∈ s.spans →
    entry.2 ≤ sp.start ∨ sp.stop ≤ entry.2 ∨ cx.tree.HasEntry sp.expr
  finished : ∀ {y}, y ∈ s.visited → s.Finished y

/-- The code of an expression that was lowered without an error looks as its kind asks for, its blocks
included if they were not met before it. -/
theorem Lowered.formed (h : cx.Lowered s) (hsp : sp ∈ s.spans) (hok : sp.expr ∉ s.failed) :
    ∃ older, sp.expr :: older <:+ s.visited ∧ ∀ kind, cx.tree.kind sp.expr = .ok kind →
      cx.Formed s sp.expr (sp.expr :: older) kind sp.start sp.stop := by
  obtain ⟨ms, hlayout⟩ := h.layout
  obtain ⟨front, part, rest, _, _, hcode, hstart, hstop, -, hown, -⟩ := hlayout.exists_part sp hsp
  have hpart : s.HasCode sp.start part := by
    intro a x hx
    rw [hcode]
    rw [hstart] at hx
    exact at_append.2 (.inr (at_append.2 (.inl hx)))
  obtain ⟨older, horder, hformed⟩ := (hown.resolve_left hok).formed h.emitted
  refine ⟨older, horder, ?_⟩
  rw [hstop]
  exact hformed (.refl s) hpart

theorem Lowered.shaped (h : cx.Lowered s) (hsp : sp ∈ s.spans) (hok : sp.expr ∉ s.failed) :
    cx.Shaped s sp.expr sp.start sp.stop := by
  obtain ⟨older, -, hformed⟩ := h.formed hsp hok
  exact fun kind hkind => (hformed kind hkind).code

end Lowering.Context

namespace Tree

open Lowering

variable {t : Tree} {env : Environment} {options : CompileOptions} {sharing : Sharing}
  {F : Fault → Prop}

theorem ends_lowerTree (ht : t.Valid) (hsharing : sharing.ExistsIn t.graph)
    (htypes : env.types.Tolerated F) :
    Step.Ends F {} (lowerTree fun pass => ⟨t, env, options, sharing, pass⟩) fun _ s =>
      s.openBlocks = 0 ∧ Context.Lowered ⟨t, env, options, sharing, .emit⟩ s := by
  have hr : ∀ pass, Context.Ready ⟨t, env, options, sharing, pass⟩ F := fun _ =>
    ⟨ht, hsharing, htypes⟩
  unfold lowerTree
  refine Step.ends_bind.2 ((Context.ends_checkWatches (hr .setup) Context.sound_init).mono ?_)
  rintro _ s1 ⟨h1, q1⟩
  refine Step.ends_bind.2 ((Context.ends_lowerRoots (hr .setup) h1 q1.code rfl).mono ?_)
  rintro _ s2 ⟨w2, l2, -⟩
  -- The setup pass emits nothing, so the code starts with the emit pass.
  have hcode : s2.code = {} := by
    rcases l2.silent with hpass | hcode
    · cases hpass
    · exact hcode.trans q1.code
  refine (Context.ends_lowerRoots (hr .emit) w2.sound hcode rfl).mono ?_
  rintro _ s3 ⟨w3, l3, hnone⟩
  obtain ⟨block, new, ms, happ, hlay⟩ := l3.laid
  refine ⟨?_, rfl, w3.sound, ⟨ms, ?_⟩, fun hsp => ?_, w3.nodup, fun hsp => (w3.located hsp).1, w3.distinct,
    fun hentry => (w3.entered hentry).2, fun {y} hy => ?_⟩
  · rw [l3.openBlocks]
    exact l2.openBlocks.trans q1.openBlocks
  · rw [happ.code, happ.spans]
    simpa [hcode, Bytecode.size] using hlay
  · exact ((l3.fed hsp).resolve_left fun hmem => by cases hmem).2
  · by_cases hfin : s3.Finished y
    · exact hfin
    · exact absurd ⟨hy, hfin⟩ hnone

theorem ends_loweredWith (ht : t.Valid) (hsharing : sharing.ExistsIn t.graph)
    (htypes : env.types.Tolerated F) :
    Checked.Ends F (t.loweredWith env options sharing)
      (Context.Lowered ⟨t, env, options, sharing, .emit⟩) := by
  unfold loweredWith
  refine Checked.ends_bind.2 (Checked.Ends.mono (ends_lowerTree ht hsharing htypes) fun r h => ?_)
  dsimp only
  rw [if_pos h.1]
  exact h.2

/-- The lowering of a valid tree ends, unless a type contains itself. -/
theorem ends_lowered (ht : t.Valid) (htypes : env.types.Tolerated F) :
    Checked.Ends F (t.lowered env options) fun s =>
      ∃ sharing, Context.Lowered ⟨t, env, options, sharing, .emit⟩ s := by
  unfold lowered
  obtain ⟨sharing, hsharing, hexists⟩ := Sharing.exists_ofTree ht
  rw [hsharing, Checked.ok_bind]
  exact (ends_loweredWith ht hexists htypes).mono fun s hs => ⟨sharing, hs⟩

end Tree
end NodeGraph
