import NodeGraph.Proofs.Lowering.Control

/-!
# Lowering expressions

The lowering of an expression of any kind does what `Lowers` allows, if the way to lower another
expression does (`Able`). Straight expressions leave more behind: `Served` says what has become of
each of their children.
-/
namespace NodeGraph.Lowering.Context

variable {cx : Context} {F : Fault → Prop} {depth bound : Nat} {e y z : ExprId} {s s' s'' : State}
  {C : ExprId → Prop} {lower : ExprId → Step Unit}

/-- The way to lower an expression on behalf of another does what it should. -/
def Able (cx : Context) (F : Fault → Prop) (depth : Nat) (lower : ExprId → Step Unit) : Prop :=
  ∀ {e z s}, cx.Within depth e s → cx.tree.Calls e z →
    Step.Ends F s (lower z) fun _ s' => cx.Within depth e s' ∧ cx.Lowers (· = z) s s' ∧ Reached z s s'

theorem Able.runs (h : cx.Able F depth lower) (hw : cx.Within depth e s) (hz : cx.tree.Calls e z) :
    cx.Runs F depth e s (lower z) fun _ s' =>
      s'.Part (some z) s.code.size s'.code.size ∧ cx.Lowers (· = z) s s' :=
  Step.Ends.mono (h hw hz) fun _ _ ⟨w, l, hz'⟩ => ⟨w, l.mono fun _ hy => .inr (hy ▸ hz), hz'.part, l⟩

/-! ## Children -/

/-- Everything met before `e` was met on behalf of something else. -/
def Fresh (cx : Context) (e : ExprId) (s : State) : Prop :=
  ∀ {y}, y ∈ s.visited → y = e ∨ y ∈ cx.tree.roots ∨ ∃ x, x ≠ e ∧ cx.tree.Calls x y

/-- What has become of a child `y` of `e` since the state `s`: it failed, or it leads back to `e`, or
its code ends at `bound` at the latest. In the last case no jump since `s` goes over it, unless it was
lowered for another expression. -/
def Served (cx : Context) (e : ExprId) (s s' : State) (bound : Nat) (y : ExprId) : Prop :=
  y ∈ s'.failed ∨ Relation.ReflTransGen cx.tree.IsChild y e ∨
    ∃ sp ∈ s'.spans, sp.expr = y ∧ sp.stop ≤ bound ∧
      (y ∈ cx.tree.roots ∨ (∃ x, x ≠ e ∧ cx.tree.Calls x y) ∨
        (s.code.size ≤ sp.start ∧ sp.start ≤ s'.code.size ∧
          ∀ {a t}, Forward 0 s'.code.instructions a t → s.code.size ≤ a → a < sp.start → t ≤ sp.start))

/-- Jumps of code that is there do not change when more is lowered. -/
theorem Lowers.forward_of_lt (h : cx.Lowers C s s') {a t : Nat} (ha : a < s.code.size)
    (hf : Forward 0 s'.code.instructions a t) : Forward 0 s.code.instructions a t := by
  obtain ⟨block, new, ms, happ, -⟩ := h.laid
  rw [happ.code, forward_append] at hf
  rcases hf with hf | ⟨x, hx, -⟩
  · exact hf
  · have := hx.lt
    rw [Bytecode.size] at ha
    omega

/-- A jump in code lowered since `s` does not leave it. -/
theorem Lowers.forward_le (h : cx.Lowers C s s') {a t : Nat} (ha : s.code.size ≤ a)
    (hf : Forward 0 s'.code.instructions a t) : t ≤ s'.code.size := by
  obtain ⟨block, new, ms, happ, hlay⟩ := h.laid
  rw [happ.code, forward_append] at hf
  rcases hf with ⟨x, hx, -⟩ | hf
  · have := hx.lt
    rw [Bytecode.size] at ha
    omega
  · rw [Nat.zero_add] at hf
    have := hlay.lands.forward hf
    rw [happ.size]
    omega

theorem Served.later (h : cx.Served e s s' bound y) (hl : cx.Lowers C s' s'') : cx.Served e s s'' bound y := by
  rcases h with h | h | ⟨sp, hsp, hexpr, hstop, h⟩
  · exact .inl (hl.failed h)
  · exact .inr (.inl h)
  · refine .inr (.inr ⟨sp, hl.spans hsp, hexpr, hstop, h.imp_right (.imp_right ?_)⟩)
    rintro ⟨hstart, hle, hcut⟩
    refine ⟨hstart, Nat.le_trans hle hl.size_le, fun hf ha hlt => ?_⟩
    exact hcut (hl.forward_of_lt (by omega) hf) ha hlt

theorem Served.earlier (h : cx.Served e s' s'' bound y) (hl : cx.Lowers C s s') (hl' : cx.Lowers C s' s'') :
    cx.Served e s s'' bound y := by
  rcases h with h | h | ⟨sp, hsp, hexpr, hstop, h⟩
  · exact .inl h
  · exact .inr (.inl h)
  · refine .inr (.inr ⟨sp, hsp, hexpr, hstop, h.imp_right (.imp_right ?_)⟩)
    rintro ⟨hstart, hle, hcut⟩
    refine ⟨Nat.le_trans hl.size_le hstart, hle, fun {a t} hf ha hlt => ?_⟩
    by_cases hbefore : s'.code.size ≤ a
    · exact hcut hf hbefore hlt
    · have := hl.forward_le ha (hl'.forward_of_lt (by omega) hf)
      omega

theorem Served.mono {bound' : Nat} (h : cx.Served e s s' bound y) (hle : bound ≤ bound') :
    cx.Served e s s' bound' y := by
  rcases h with h | h | ⟨sp, hsp, hexpr, hstop, h⟩
  · exact .inl h
  · exact .inr (.inl h)
  · exact .inr (.inr ⟨sp, hsp, hexpr, Nat.le_trans hstop hle, h⟩)

/-- A child that is lowered is served. Only the children in `done` were lowered before it. -/
theorem served_of_lowers {done : List ExprId} (hw : cx.Within depth e s) (hw' : cx.Within depth e s')
    (hfresh : cx.Fresh e s) (hl : cx.Lowers (· ∈ done) s s') (hl' : cx.Lowers (· = z) s' s'')
    (hdone : z ∈ done → cx.Served e s s' s'.code.size z) (hz : Reached z s' s'') :
    cx.Served e s s'' s''.code.size z := by
  by_cases heq : z = e
  · exact .inr (.inl (heq ▸ .refl))
  rcases hz with ⟨-, hz | hz⟩ | hz
  · exact .inl (hl'.failed hz)
  · by_cases hmem : z ∈ done
    · exact ((hdone hmem).later hl').mono hl'.size_le
    · by_cases hfin : s'.Finished z
      · obtain ⟨sp, hsp, hexpr⟩ := hfin
        have hstop := Nat.le_trans (hw'.located hsp).2 hl'.size_le
        refine .inr (.inr ⟨sp, hl'.spans hsp, hexpr, hstop, ?_⟩)
        rcases hl.met hz with hz | hz | ⟨x, -, hx, hcalls⟩
        · exact ((hfresh hz).resolve_left heq).imp_right .inl
        · exact absurd hz hmem
        · exact .inr (.inl ⟨x, fun heq => hx (heq ▸ hw.current), hcalls⟩)
      · exact .inr (.inl (hw'.pending ⟨hz, hfin⟩))
  · have hstart : s.code.size ≤ s'.code.size := hl.size_le
    refine .inr (.inr ⟨_, hz, rfl, Nat.le_refl _, .inr (.inr ⟨hstart, hl'.size_le, ?_⟩)⟩)
    intro a t hf ha hlt
    exact hl.forward_le ha (hl'.forward_of_lt hlt hf)

theorem runs_lowerChildren (ha : cx.Able F depth lower) (hw : cx.Within depth e s) :
    cx.Runs F depth e s (cx.lowerChildren lower e) fun _ s' =>
      cx.Fresh e s → ∀ {y}, cx.tree.IsChild e y → cx.Served e s s' s'.code.size y := by
  obtain ⟨x, hx⟩ := Tree.exists_expr hw.lt
  have hchild : ∀ y ∈ x.children, cx.tree.IsChild e y := fun y hy => ⟨x, hx, hy⟩
  unfold lowerChildren
  refine Runs.ok_bind (Tree.children_eq hx) ?_
  -- The children done so far are served, and nothing else was lowered directly.
  have hwalk := Step.ends_forM (F := F) (s := s) (l := x.children) (f := lower)
    (fun done s' => cx.Within depth e s' ∧ cx.Lowers (· ∈ done) s s' ∧
      (cx.Fresh e s → ∀ y ∈ done, cx.Served e s s' s'.code.size y))
    ⟨hw, .refl s, by simp⟩ ?_
  · refine hwalk.mono fun _ s' h => ⟨h.1, h.2.1.mono fun y hy => .inr (.inl (hchild y hy)), ?_⟩
    rintro hfresh y ⟨x', hx', hy⟩
    rw [hx] at hx'
    cases hx'
    exact h.2.2 hfresh y hy
  · rintro done z rest hl s1 ⟨w1, l1, served1⟩
    have hz : z ∈ x.children := by rw [hl]; simp
    refine (ha w1 (.inl (hchild z hz))).mono fun _ s2 h => ?_
    obtain ⟨w2, l2, hz2⟩ := h
    refine ⟨w2, (l1.mono ?_).trans (l2.mono ?_), fun hfresh y hy => ?_⟩
    · intro y hy
      exact List.mem_append_left _ hy
    · rintro y rfl
      simp
    · by_cases hmem : y ∈ done
      · exact ((served1 hfresh y hmem).later l2).mono l2.size_le
      · obtain rfl : y = z := by simpa [hmem] using hy
        exact served_of_lowers hw w1 hfresh l1 l2 (fun h => absurd h hmem) hz2

theorem runs_copyValue (hw : cx.Within depth e s) (hpass : cx.pass = .emit) {source target : Operand}
    (hsource : s.Holds cx.env source) (htarget : s.Holds cx.env target) :
    cx.Runs F depth e s (cx.copyValue source target) fun _ s' => Appends s s' (copyCode source target) [] := by
  unfold copyValue copyCode
  split
  · exact .pure hw ⟨by simp, by simp⟩
  · exact (runs_emit hw hpass rfl (by simpa [State.Accepts] using ⟨hsource, htarget⟩)).mono
      fun _ _ _ _ h => h.1

/-- An arm that lowers a value and copies it. -/
theorem arm_copy (ha : cx.Able F depth lower) (hpass : cx.pass = .emit) (hz : cx.tree.IsChild e z)
    {value result : Operand} (hvalue : s.Holds cx.env value) (hresult : s.Holds cx.env result) :
    cx.Arm F depth e s.storage (some z) (copyCode value result) (do lower z; cx.copyValue value result) := by
  intro s1 w1 hle
  refine Step.ends_bind.2 (Step.Ends.mono (ha.runs w1 (.inl hz)) ?_)
  rintro _ s2 ⟨w2, l2, hpart, -⟩
  have hle2 := hle.trans l2.storage
  refine Step.Ends.mono (runs_copyValue w2 hpass (Storage.Holds.mono hvalue hle2)
    (Storage.Holds.mono hresult hle2)) ?_
  rintro _ s3 ⟨w3, l3, happ⟩
  have hcopy : Ensures s2 s3 fun s'' => s''.HasCode s2.code.size (copyCode value result) :=
    .of_appends happ fun _ hcode => hcode
  refine ⟨w3, l2.trans l3, fun _ _ happ' s'' hle' hcode => ?_⟩
  exact ⟨s2.code.size, hpart.mono (l3.toRetains.trans hle'), (hcopy.behind l2 l3) happ' hle' hcode, happ.size⟩

/-- The cases of a selection have their operands, and all but the first a label. -/
structure CasesFound (cx : Context) (e : ExprId) (arms : List (ExprId × Operand)) (labels : List Operand)
    (s : State) : Prop where
  values : cx.tree.subPinValues e PinName.values = .ok (arms.map (·.1))
  children : ∀ arm ∈ arms, cx.tree.IsChild e arm.1
  length : labels.length + 1 = arms.length
  operands : ∀ arm ∈ arms, s.operands.lookup arm.1 = some arm.2 ∧ s.Holds cx.env arm.2
  labelled : ∀ label ∈ labels, s.Holds cx.env label
  named : ∀ {n label}, labels[n]? = some label → s.storage.Named s!"Const::int32::{n + 1}" label

theorem CasesFound.mono {arms : List (ExprId × Operand)} {labels : List Operand}
    (h : cx.CasesFound e arms labels s) (hle : s.Retains s') : cx.CasesFound e arms labels s' where
  values := h.values
  children := h.children
  length := h.length
  operands arm harm := ⟨hle.operands (h.operands arm harm).1, Storage.Holds.mono (h.operands arm harm).2 hle.storage⟩
  labelled label hl := Storage.Holds.mono (h.labelled label hl) hle.storage
  named hl := (h.named hl).mono hle.storage

section Ready

variable (hr : cx.Ready F) (ha : cx.Able F depth lower)

include hr

/-! ## Operands -/

theorem emits_operandOf (hw : cx.Within depth e s) (hy : y < cx.tree.exprs.length) :
    cx.Emits F depth e s (cx.operandOf y) fun o s' =>
      (s'.Holds cx.env o ∧ s'.operands.lookup y = some o) ∧ Quiet s s' :=
  .of_resolves hw (hr.resolves_operandOf hw.sound hy).quiet

theorem emits_requiredVar (hw : cx.Within depth e s) (pin : String) :
    cx.Emits F depth e s (cx.requiredVar e pin) fun var s' =>
      s' = s ∧ cx.tree.IsChild e var ∧ cx.tree.varForPin e pin = .ok (some var) :=
  .of_resolves hw (hr.resolves_requiredVar hw.sound hw.lt pin)

theorem emits_pinOperand (hw : cx.Within depth e s) (pin : String) :
    cx.Emits F depth e s (cx.pinOperand e pin) fun o s' =>
      (s'.Holds cx.env o ∧ cx.tree.PinOperand s' e pin o) ∧ Quiet s s' :=
  .of_resolves hw (hr.resolves_pinOperand hw.sound hw.lt pin).quiet

theorem emits_callOperands (hw : cx.Within depth e s) (function : String) :
    cx.Emits F depth e s (cx.callOperands e function) fun r s' =>
      (cx.env.catalog.index? function = some r.1 ∧ s'.Accepts cx.env (.execute r.1 r.2)) ∧ Quiet s s' :=
  .of_resolves hw (hr.resolves_callOperands hw.sound hw.lt function).quiet

/-- The operands of the cases and the labels of all cases but the first are found before anything is lowered. -/
theorem emits_caseOperands (hw : cx.Within depth e s) {first : ExprId} {others : List ExprId}
    (hcases : cx.tree.subPinValues e PinName.values = .ok (first :: others))
    {next : Operand → List Operand → List Operand → Attempt Unit} {Q : Unit → State → Prop}
    (hnext : ∀ firstValue otherValues labels s', cx.Within depth e s' →
      cx.Lowers (cx.tree.Involves e) s s' → s'.code.size = s.code.size →
      cx.CasesFound e ((first, firstValue) :: others.zip otherValues) labels s' →
      cx.Emits F depth e s' (next firstValue otherValues labels) Q) :
    cx.Emits F depth e s (do
      let firstValue ← cx.operandOf first
      let otherValues ← others.mapM cx.operandOf
      let labels ← (List.range' 1 others.length).mapM cx.caseLabel
      next firstValue otherValues labels) Q := by
  obtain ⟨_, hcases', hchild⟩ := hr.tree.exists_subPinValues hw.lt PinName.values
  cases hcases.symm.trans hcases'
  have hvalue {s1 : State} (value : ExprId) (hv : value ∈ first :: others) (h1 : s1.Sound cx.tree cx.env) :
      Resolves cx.tree cx.env F s1 (cx.operandOf value) fun o s' =>
        s'.Holds cx.env o ∧ s'.operands.lookup value = some o :=
    hr.resolves_operandOf h1 (hr.tree.children (hchild value hv))
  refine (Emits.of_resolves hw (hvalue first (by simp) hw.sound).quiet).bind
    fun firstValue s1 w1 l1 ⟨⟨hfirst, hfirstKept⟩, q1⟩ => ?_
  refine (Emits.of_resolves w1 (Resolves.mapM (R := fun value o s' => s'.operands.lookup value = some o)
    w1.sound (fun hq ho => hq.operands ho) fun value hv s' h' _ => hvalue value (by simp [hv]) h').quiet).bind
    fun otherValues s2 w2 l2 ⟨⟨hlength, hothers, hothersKept⟩, q2⟩ => ?_
  refine (Emits.of_resolves w2 (Resolves.mapM
    (R := fun n o s' => s'.storage.Named s!"Const::int32::{n}" o) w2.sound (fun hq ho => ho.mono hq.storage)
    fun label _ s' h' _ => hr.resolves_caseLabel h' label).quiet).bind
    fun labels s3 w3 l3 ⟨⟨hlabelsLength, hlabels, hnamed⟩, q3⟩ => ?_
  rw [List.length_range'] at hlabelsLength
  refine hnext firstValue otherValues labels s3 w3 ((l1.trans l2).trans l3) (by rw [q3.code, q2.code, q1.code]) ?_
  refine ⟨?_, fun arm harm => ?_, by simp [hlength, hlabelsLength], fun arm harm => ?_, hlabels, fun {n label} hl => ?_⟩
  · rw [hcases, List.map_cons, List.map_fst_zip (by omega)]
  · rcases List.mem_cons.1 harm with rfl | harm
    · exact hchild first (by simp)
    · exact hchild arm.1 (by simp [(List.of_mem_zip harm).1])
  · rcases List.mem_cons.1 harm with rfl | harm
    · exact ⟨(l2.trans l3).operands hfirstKept, l3.holds (l2.holds hfirst)⟩
    · exact ⟨l3.operands (hothersKept arm harm), l3.holds (hothers arm.2 (List.of_mem_zip harm).2)⟩
  · have hn : n < others.length := by
      rw [← hlabelsLength]
      exact (List.getElem?_eq_some_iff.1 hl).1
    have hmem : (n + 1, label) ∈ (List.range' 1 others.length).zip labels :=
      List.mem_of_getElem? (i := n) (List.getElem?_zip_eq_some.2 ⟨by simp [hn, Nat.add_comm], hl⟩)
    exact hnamed _ hmem

include ha

theorem lowersBlock (hlt : e < cx.tree.exprs.length) {pin : String} {block : Option ExprId}
    (hblock : cx.tree.blockForPin e pin = .ok block) :
    cx.LowersBlock F depth e block (cx.lowerBlock lower e pin) := by
  obtain ⟨r, hr', hmem⟩ := hr.tree.exists_blockForPin hlt pin
  cases hblock.symm.trans hr'
  unfold lowerBlock
  rw [hblock]
  cases block with
  | none => exact ⟨nofun, fun hw => Step.ends_pure.2 ⟨hw, .refl _, rfl, nofun⟩⟩
  | some z =>
    obtain ⟨v, hv, hz, hkind⟩ := hmem z rfl
    have hcalls : cx.tree.Calls e z := .inr ⟨v, hv, hz, hkind⟩
    refine ⟨fun hy => Option.some.inj hy ▸ hcalls, fun hw => (ha hw hcalls).mono ?_⟩
    rintro _ s' ⟨w, l, hreached⟩
    exact ⟨w, l.mono fun y hy => by rw [hy], hreached.part, fun y hy => Option.some.inj hy ▸ hreached⟩

theorem emits_lowerPin (hw : cx.Within depth e s) (pin : String) :
    cx.Emits F depth e s (cx.lowerPin lower e pin) fun o s' =>
      (s'.Holds cx.env o ∧ cx.tree.PinValue s' e pin o s.code.size s'.code.size) ∧
      cx.Lowers (fun z => cx.tree.varForPin e pin = .ok (some z)) s s' := by
  unfold lowerPin
  refine (emits_requiredVar hr hw pin).bind ?_
  rintro var _ _ _ ⟨rfl, hchild, hvar⟩
  refine (Emits.step (ha.runs hw (.inl hchild))).bind fun _ s1 w1 _ ⟨hpart, l1⟩ => ?_
  refine (emits_operandOf hr w1 (hr.tree.children hchild)).mono fun o s2 _ l2 ⟨⟨ho, hkept⟩, hquiet⟩ => ?_
  refine ⟨⟨ho, var, hvar, hkept, ?_⟩, (l1.mono ?_).trans (lowers_of_quiet hquiet)⟩
  · rw [hquiet.code]
    exact hpart.mono l2.toRetains
  · rintro _ rfl
    exact hvar

/-! ## Control flow -/

theorem emits_lowerBranch (hw : cx.Within depth e s) :
    cx.Emits F depth e s (cx.lowerBranch lower e) fun _ s' => cx.pass = .emit → Ensures s s' fun s'' =>
      ∃ f, cx.tree.BranchCode s'' e f s.code.size s'.code.size := by
  unfold lowerBranch
  cases hpass : cx.pass with
  | setup =>
    refine (Emits.step (runs_lowerChildren ha hw)).bind fun _ s1 w1 _ _ => ?_
    refine (emits_pinOperand hr w1 _).bind fun _ s2 w2 _ _ => ?_
    exact .pure w2 nofun
  | emit =>
    obtain ⟨whenTrue, htrue, -⟩ := hr.tree.exists_blockForPin hw.lt PinName.whenTrue
    obtain ⟨whenFalse, hfalse, -⟩ := hr.tree.exists_blockForPin hw.lt PinName.whenFalse
    obtain ⟨completed, hcompleted, -⟩ := hr.tree.exists_blockForPin hw.lt PinName.completed
    refine (emits_lowerPin hr ha hw _).bind fun condition s1 w1 l1 ⟨⟨hcond, hvalue⟩, _⟩ => ?_
    refine (Emits.step (runs_alternative (x := (whenTrue, [])) (y := (whenFalse, [])) w1 hpass hcond
      ((lowersBlock hr ha hw.lt htrue).arm _) ((lowersBlock hr ha hw.lt hfalse).arm _))).bind
      fun _ s2 w2 l2 hfork => ?_
    refine .step (((lowersBlock hr ha hw.lt hcompleted).runs w2).mono fun _ s3 _ l3 hpart _ => ?_)
    intro block new happ s'' hle hcode
    have l23 := l2.trans l3
    obtain ⟨f, rfl, hjump, hjoin, hin⟩ := ((hfork.front l2 l3).behind l1 l23) happ hle hcode
    refine ⟨f, ⟨s.code.size, Nat.le_refl _, ?_⟩, ⟨whenTrue, whenFalse, htrue, hfalse, hin⟩, completed,
      hcompleted, ?_⟩
    · rw [hjump]
      exact hvalue.mono (l23.toRetains.trans hle)
    · rw [hjoin]
      exact hpart.mono hle

theorem emits_lowerIf (hw : cx.Within depth e s) :
    cx.Emits F depth e s (cx.lowerIf lower e) fun _ s' => cx.pass = .emit → Ensures s s' fun s'' =>
      ∃ f trueValue falseValue result,
        cx.tree.IfCode s'' e f trueValue falseValue result s.code.size s'.code.size := by
  unfold lowerIf
  refine (emits_requiredVar hr hw _).bind ?_
  rintro whenTrue _ _ _ ⟨rfl, htrue, htrueVar⟩
  refine (emits_requiredVar hr hw _).bind ?_
  rintro whenFalse _ _ _ ⟨rfl, hfalse, hfalseVar⟩
  have htrueLt := hr.tree.children htrue
  have hfalseLt := hr.tree.children hfalse
  cases hpass : cx.pass with
  | setup =>
    refine (Emits.step (runs_lowerChildren ha hw)).bind fun _ s1 w1 _ _ => ?_
    refine (emits_pinOperand hr w1 _).bind fun _ s2 w2 _ _ => ?_
    refine (emits_pinOperand hr w2 _).bind fun _ s3 w3 _ _ => ?_
    refine (emits_operandOf hr w3 htrueLt).bind fun _ s4 w4 _ _ => ?_
    refine (emits_operandOf hr w4 hfalseLt).bind fun _ s5 w5 _ _ => ?_
    exact .pure w5 nofun
  | emit =>
    refine (emits_operandOf hr hw htrueLt).bind fun trueValue s1 w1 l1 ⟨⟨htv, htvKept⟩, _⟩ => ?_
    refine (emits_operandOf hr w1 hfalseLt).bind fun falseValue s2 w2 l2 ⟨⟨hfv, hfvKept⟩, _⟩ => ?_
    refine (emits_lowerPin hr ha w2 _).bind fun result s3 w3 l3 ⟨⟨hresult, hresultValue⟩, _⟩ => ?_
    refine (emits_lowerPin hr ha w3 _).bind fun condition s4 w4 l4 ⟨⟨hcond, hcondValue⟩, _⟩ => ?_
    have htv4 := l4.holds (l3.holds (l2.holds htv))
    have hfv4 := l4.holds (l3.holds hfv)
    have hresult4 := l4.holds hresult
    refine .step ((runs_alternative (x := (some whenTrue, copyCode trueValue result))
      (y := (some whenFalse, copyCode falseValue result)) w4 hpass hcond
      (arm_copy ha hpass htrue htv4 hresult4) (arm_copy ha hpass hfalse hfv4 hresult4)).mono
      fun _ s5 _ l5 hfork _ => ?_)
    intro block new happ s'' hle hcode
    have l12 := l1.trans l2
    have ret3 := (l4.trans l5).toRetains.trans hle
    have ret2 := l3.toRetains.trans ret3
    obtain ⟨f, rfl, hjump, hjoin, hin⟩ := (hfork.behind (l12.trans (l3.trans l4)) l5) happ hle hcode
    refine ⟨f, trueValue, falseValue, result, ⟨s2.code.size, s3.code.size, l12.size_le,
      hresultValue.mono ret3, ?_⟩, ⟨whenTrue, whenFalse, htrueVar, hfalseVar, ?_, ret2.operands hfvKept, hin⟩,
      hjoin⟩
    · rw [hjump]
      exact hcondValue.mono (l5.toRetains.trans hle)
    · exact (l2.toRetains.trans ret2).operands htvKept

/-- A selection with one case does not look at its index. -/
theorem emits_onlyCase (hw : cx.Within depth e s) (hpass : cx.pass = .emit) {only : ExprId × Operand}
    (hfound : cx.CasesFound e [only] [] s) :
    cx.Emits F depth e s (do
      let result ← cx.lowerPin lower e PinName.result
      let _ ← cx.lowerPin lower e PinName.index
      cx.emitCases [(none, do lower only.1; cx.copyValue only.2 result)]) fun _ s' => Ensures s s' fun s'' =>
        ∃ x, cx.tree.SelectCode s'' e x s.code.size s'.code.size := by
  have honly : only ∈ [only] := by simp
  refine (emits_lowerPin hr ha hw _).bind fun result s1 w1 l1 ⟨⟨hresult, hresultValue⟩, _⟩ => ?_
  refine (emits_lowerPin hr ha w1 _).bind fun index s2 w2 l2 ⟨⟨_, hindexValue⟩, _⟩ => ?_
  have harm := arm_copy ha hpass (hfound.children only honly)
    (l2.holds (l1.holds (hfound.operands only honly).2)) (l2.holds hresult)
  refine .step (Runs.mono (P := fun _ s3 => Ensures s2 s3 fun s'' =>
    s''.Stretch (some only.1) (copyCode only.2 result) s2.code.size s3.code.size)
    (Step.ends_bind.2 (harm s2 w2 (.refl _))) ?_)
  intro _ s3 _ l3 hstretch block new happ s'' hle hcode
  have ret1 := (l2.trans l3).toRetains.trans hle
  have found := hfound.mono (l1.toRetains.trans ret1)
  exact ⟨⟨index, index, result, [], [only], s2.code.size, [s2.code.size]⟩,
    { values := found.values
      operands := fun arm harm => (found.operands arm harm).1
      length := rfl
      labels := nofun
      scratch := fun h => absurd rfl h
      pins := ⟨s.code.size, s1.code.size, .refl _ _, hresultValue.mono ret1, hindexValue.mono (l3.toRetains.trans hle)⟩
      comparisons := fun _ _ hx => absurd hx not_at_nil
      first := rfl
      cases := (hstretch.behind (l1.trans l2) l3) happ hle hcode }⟩

/-- A selection with several cases compares its index with the labels of all but the first. -/
theorem emits_severalCases (hw : cx.Within depth e s) (hpass : cx.pass = .emit) {first : ExprId × Operand}
    {arms : List (ExprId × Operand)} {labels : List Operand} (hne : arms ≠ [])
    (hfound : cx.CasesFound e (first :: arms) labels s) :
    cx.Emits F depth e s (do
      let scratch ← cx.comparisonScratch
      let result ← cx.lowerPin lower e PinName.result
      let index ← cx.lowerPin lower e PinName.index
      let jumps ← cx.compareIndex index scratch labels
      cx.emitCases ((none, do lower first.1; cx.copyValue first.2 result) ::
        (jumps.zip arms).map fun x => (some x.1, do lower x.2.1; cx.copyValue x.2.2 result)))
      fun _ s' => Ensures s s' fun s'' => ∃ x, cx.tree.SelectCode s'' e x s.code.size s'.code.size := by
  refine (Emits.of_resolves hw (hr.resolves_comparisonScratch hw.sound).quiet).bind
    fun scratch s1 w1 l1 ⟨⟨hscratch, hscratchNamed⟩, q1⟩ => ?_
  have hcode1 : s1.code.size = s.code.size := by rw [q1.code]
  refine (emits_lowerPin hr ha w1 _).bind fun result s2 w2 l2 ⟨⟨hresult, hresultValue⟩, _⟩ => ?_
  refine (emits_lowerPin hr ha w2 _).bind fun index s3 w3 l3 ⟨⟨hindex, hindexValue⟩, _⟩ => ?_
  have l13 := (l1.trans l2).trans l3
  have harm : ∀ arm ∈ first :: arms, cx.Arm F depth e s3.storage (some arm.1) (copyCode arm.2 result)
      (do lower arm.1; cx.copyValue arm.2 result) := fun arm harm =>
    arm_copy ha hpass (hfound.children arm harm) (l13.holds (hfound.operands arm harm).2) (l3.holds hresult)
  have hlength : arms.length = labels.length := (Nat.add_right_cancel hfound.length).symm
  refine .step_bind (Runs.mono (runs_cases hpass hne hlength harm w3 hindex (l3.holds (l2.holds hscratch))
    fun label hl => l13.holds (hfound.labelled label hl)) ?_)
  intro _ s4 _ l4 hensures block new happ s'' hle hcode
  have ret2 := (l3.trans l4).toRetains.trans hle
  have ret1 := l2.toRetains.trans ret2
  have found := hfound.mono (l1.toRetains.trans ret1)
  obtain ⟨starts, hstart, hcompare, hall⟩ := (hensures.behind l13 l4) happ hle hcode
  exact ⟨⟨index, scratch, result, labels, first :: arms, s3.code.size, starts⟩,
    { values := found.values
      operands := fun arm harm => (found.operands arm harm).1
      length := found.length
      labels := found.named
      scratch := fun _ => hscratchNamed.mono ret1.storage
      pins := ⟨s1.code.size, s2.code.size, hcode1 ▸ .refl _ _, hresultValue.mono ret2,
        hindexValue.mono (l4.toRetains.trans hle)⟩
      comparisons := hcompare
      first := hstart
      cases := hall }⟩

theorem emits_lowerSelect (hw : cx.Within depth e s) :
    cx.Emits F depth e s (cx.lowerSelect lower e) fun _ s' => cx.pass = .emit → Ensures s s' fun s'' =>
      cx.tree.subPinValues e PinName.values ≠ .ok [] →
        ∃ x, cx.tree.SelectCode s'' e x s.code.size s'.code.size := by
  unfold lowerSelect
  obtain ⟨cases, hcases, hchild⟩ := hr.tree.exists_subPinValues hw.lt PinName.values
  refine .ok_bind hcases ?_
  split
  · next hpass =>
    refine (Emits.step (runs_lowerChildren ha hw)).bind fun _ s1 w1 _ _ => ?_
    exact .step ((runs_reportWarning w1 _ _).mono fun _ _ _ _ _ h => nomatch hpass.symm.trans h)
  · exact .pure hw fun _ _ _ _ _ _ _ hne => absurd hcases hne
  · next head others hpass =>
    refine (Emits.step (runs_lowerChildren ha hw)).bind fun _ s1 w1 _ _ => ?_
    refine (emits_pinOperand hr w1 _).bind fun _ s2 w2 _ _ => ?_
    refine (emits_pinOperand hr w2 _).bind fun _ s3 w3 _ _ => ?_
    refine (Emits.of_resolves w3 (Resolves.forM w3.sound fun label _ s' h' _ =>
      (hr.resolves_caseLabel h' label).bind fun _ s'' h'' _ _ => .pure h'' trivial)).bind ?_
    intro _ s4 w4 _ _
    have hvalues {s5} (w5 : cx.Within depth e s5) : cx.Emits F depth e s5
        ((head :: others).forM fun value => do let _ ← cx.operandOf value) fun _ s' =>
          cx.pass = .emit → Ensures s s' fun s'' => cx.tree.subPinValues e PinName.values ≠ .ok [] →
            ∃ x, cx.tree.SelectCode s'' e x s.code.size s'.code.size :=
      (Emits.of_resolves w5 (.forM w5.sound fun value hv s' h' _ =>
        (hr.resolves_operandOf h' (hr.tree.children (hchild value hv))).bind
          fun _ s'' h'' _ _ => .pure h'' trivial)).mono fun _ _ _ _ _ h => nomatch hpass.symm.trans h
    dsimp only
    split
    · refine (Emits.of_resolves w4 (hr.resolves_comparisonScratch w4.sound)).bind ?_
      exact fun _ s5 w5 _ _ => hvalues w5
    · exact hvalues w4
  · next first others hpass =>
    refine emits_caseOperands hr hw hcases fun firstValue otherValues labels s1 w1 l1 hsize hfound => ?_
    -- What is emitted since the operands were found is all that is emitted.
    have hbehind {s2 : State} (l2 : cx.Lowers (cx.tree.Involves e) s1 s2) (h : Ensures s1 s2 fun s'' =>
        ∃ x, cx.tree.SelectCode s'' e x s1.code.size s2.code.size) : cx.pass = .emit → Ensures s s2 fun s'' =>
          cx.tree.subPinValues e PinName.values ≠ .ok [] →
            ∃ x, cx.tree.SelectCode s'' e x s.code.size s2.code.size :=
      fun _ _ _ happ _ hle hcode _ => hsize ▸ (h.behind l1 l2) happ hle hcode
    dsimp only
    split
    · next hnil =>
      subst hnil
      obtain rfl : labels = [] := List.length_eq_zero_iff.1 (Nat.add_right_cancel hfound.length)
      exact (emits_onlyCase hr ha w1 hpass hfound).mono fun _ s2 _ l2 h => hbehind l2 h
    · next hne =>
      rw [bind_map_left]
      have hzip : others.zip otherValues ≠ [] := fun h => by
        have hmap := hfound.values
        rw [hcases, h] at hmap
        cases hmap
        exact hne rfl
      exact (emits_severalCases hr ha w1 hpass hzip hfound).mono fun _ s2 _ l2 h => hbehind l2 h

omit hr ha in
/-- The blocks of a loop are known for what was met before the values in front of it were lowered. -/
theorem Lowers.hasBlocks (l : cx.Lowers C s s') (hw : cx.Walk depth s) (hle : s'.Retains s'') {loop : Loop}
    {x y : Option ExprId} {stop : Nat} (hzero : loop.zero = s'.code.size)
    (h : loop.HasBlocks cx.tree s'' s'.visited C x y s'.code.size stop) :
    loop.HasBlocks cx.tree s'' s.visited C x y s.code.size stop := by
  refine h.earlier l.size_le fun hz hnew => ?_
  obtain ⟨hbelow, hat⟩ := l.found hw hz hnew
  rw [hzero]
  exact ⟨hbelow, hat.mono hle⟩

theorem emits_lowerForLoop (hw : cx.Within depth e s) (function : String) :
    cx.Emits F depth e s (cx.lowerForLoop lower e function) fun _ s' => cx.pass = .emit →
      Ensures s s' fun s'' => ∃ l number signature operands,
        cx.env.catalog.find? function = some (number, signature) ∧ l.step = .execute number operands ∧
        cx.tree.LoopCode s'' e l s.code.size s'.code.size ∧
        cx.tree.LoopBlocks s'' e s.visited (loopPins signature.parameters) l s.code.size s'.code.size := by
  unfold lowerForLoop
  cases hpass : cx.pass with
  | setup =>
    refine (Emits.step (runs_lowerChildren ha hw)).bind fun _ s1 w1 _ _ => ?_
    refine (emits_callOperands hr w1 _).bind fun _ s2 w2 _ _ => ?_
    refine (emits_pinOperand hr w2 _).bind fun _ s3 w3 _ _ => ?_
    exact .pure w3 nofun
  | emit =>
    dsimp only
    split
    · exact .throw hw (by simp)
    · next number signature hfind =>
      refine (Emits.forM (C := cx.tree.PinVar e (loopPins signature.parameters)) hw
        fun pin hpin s' w' _ => ?_).bind fun _ s1 w1 l1 ahead1 => ?_
      · refine (emits_requiredVar hr w' pin).bind ?_
        rintro var _ _ _ ⟨rfl, hchild, hvar⟩
        refine .step ((ha.runs w' (.inl hchild)).mono fun _ _ _ _ h => h.2.mono ?_)
        rintro _ rfl
        exact ⟨pin, hpin, hvar⟩
      · refine (emits_pinOperand hr w1 _).bind fun count s2 w2 l2 ⟨⟨hcount, hcountPin⟩, q2⟩ => ?_
        refine (emits_pinOperand hr w2 _).bind fun index s3 w3 l3 ⟨⟨hindex, hindexPin⟩, q3⟩ => ?_
        refine (emits_pinOperand hr w3 _).bind fun proceed s4 w4 l4 ⟨⟨hproceed, hproceedPin⟩, q4⟩ => ?_
        refine (emits_callOperands hr w4 _).bind fun call s5 w5 l5 ⟨hcall, q5⟩ => ?_
        have hnumber : call.1 = number :=
          Option.some.inj (hcall.1.symm.trans (Catalog.find?_eq_some.1 hfind).1)
        have ahead5 := ahead1.trans (lowers_of_quiet (q2.trans (q3.trans (q4.trans q5))))
        obtain ⟨body, hbody, -⟩ := hr.tree.exists_blockForPin hw.lt PinName.execute
        obtain ⟨completed, hcompleted, -⟩ := hr.tree.exists_blockForPin hw.lt PinName.completed
        refine .step ((runs_emitLoop (C := cx.tree.PinVar e (loopPins signature.parameters)) w5 hpass
          (l5.holds (l4.holds (l3.holds hcount))) (l5.holds (l4.holds hindex)) (l5.holds hproceed) rfl hcall.2
          (lowersBlock hr ha hw.lt hbody) (lowersBlock hr ha hw.lt hcompleted)).mono
          fun _ s6 _ l6 hloop _ => ?_)
        intro block new happ s'' hle hcode
        have l35 := l4.trans l5
        have l15 := l1.trans (l2.trans (l3.trans l35))
        have ret5 := l6.toRetains.trans hle
        have ret4 := l5.toRetains.trans ret5
        have ret3 := l4.toRetains.trans ret4
        obtain ⟨hzero, last, hin, hpart, hblocks⟩ := (hloop.behind l15 l6) happ hle hcode
        exact ⟨⟨_, count, index, proceed, s5.code.size, last⟩, number, signature, call.2, hfind,
          by rw [← hnumber],
          { start_le := l15.size_le
            index := hindexPin.mono ret3
            count := hcountPin.mono (l3.toRetains.trans ret3)
            proceed := hproceedPin.mono ret4
            zero := hzero
            loop := ⟨body, hbody, hin⟩
            completed := ⟨completed, hcompleted, hpart⟩ },
          body, completed, hbody, hcompleted, ahead5.hasBlocks hw.toWalk ret5 rfl hblocks⟩

theorem emits_lowerIterate (hw : cx.Within depth e s) :
    cx.Emits F depth e s (cx.lowerIterate lower e) fun _ s' => cx.pass = .emit → Ensures s s' fun s'' =>
      ∃ l operands, l.step = .array .iterate operands ∧
        cx.tree.LoopCode s'' e l s.code.size s'.code.size ∧
        cx.tree.LoopBlocks s'' e s.visited ArrayOp.iterate.pinNames l s.code.size s'.code.size := by
  unfold lowerIterate
  cases hpass : cx.pass with
  | setup =>
    refine (Emits.step (runs_lowerChildren ha hw)).bind fun _ s1 w1 _ _ => ?_
    exact (Emits.of_resolves w1 (.forM w1.sound fun pin _ s' h' _ =>
      (hr.resolves_pinOperand h' w1.lt pin).bind fun _ s'' h'' _ _ => .pure h'' trivial)).mono
      fun _ _ _ _ _ => nofun
  | emit =>
    refine (emits_lowerPin hr ha hw _).bind fun array s1 w1 l1 ⟨⟨harray, _⟩, a1⟩ => ?_
    refine (emits_lowerPin hr ha w1 _).bind fun element s2 w2 l2 ⟨⟨helement, _⟩, a2⟩ => ?_
    refine (emits_lowerPin hr ha w2 _).bind fun index s3 w3 l3 ⟨⟨hindex, hindexPin⟩, a3⟩ => ?_
    refine (emits_lowerPin hr ha w3 _).bind fun count s4 w4 l4 ⟨⟨hcount, hcountPin⟩, a4⟩ => ?_
    refine (emits_lowerPin hr ha w4 _).bind fun ratio s5 w5 l5 ⟨⟨hratio, _⟩, a5⟩ => ?_
    refine (emits_lowerPin hr ha w5 _).bind fun proceed s6 w6 l6 ⟨⟨hproceed, hproceedPin⟩, a6⟩ => ?_
    have l46 := l5.trans l6
    have l36 := l4.trans l46
    have l26 := l3.trans l36
    have hstep : s6.Accepts cx.env
        (.array .iterate [array, element, index, count, ratio, proceed]) := by
      refine ⟨rfl, ?_⟩
      simpa using ⟨(l2.trans l26).holds harray, l26.holds helement, l36.holds hindex, l46.holds hcount,
        l6.holds hratio, hproceed⟩
    -- All that is lowered in front of the loop is below its pins.
    have hpin {pin : String} {s s' : State} (hpin : pin ∈ ArrayOp.iterate.pinNames)
        (a : cx.Lowers (fun z => cx.tree.varForPin e pin = .ok (some z)) s s') :
        cx.Lowers (cx.tree.PinVar e ArrayOp.iterate.pinNames) s s' :=
      a.mono fun _ hz => ⟨pin, hpin, hz⟩
    have a36 := ((hpin (by simp [ArrayOp.pinNames]) a4).trans (hpin (by simp [ArrayOp.pinNames]) a5)).trans
      (hpin (by simp [ArrayOp.pinNames]) a6)
    have a13 := ((hpin (by simp [ArrayOp.pinNames]) a1).trans (hpin (by simp [ArrayOp.pinNames]) a2)).trans
      (hpin (by simp [ArrayOp.pinNames]) a3)
    obtain ⟨body, hbody, -⟩ := hr.tree.exists_blockForPin hw.lt PinName.execute
    obtain ⟨completed, hcompleted, -⟩ := hr.tree.exists_blockForPin hw.lt PinName.completed
    refine .step ((runs_emitLoop (C := cx.tree.PinVar e ArrayOp.iterate.pinNames) w6 hpass
      (l46.holds hcount) (l36.holds hindex) hproceed rfl hstep (lowersBlock hr ha hw.lt hbody)
      (lowersBlock hr ha hw.lt hcompleted)).mono fun _ s7 _ l7 hloop _ => ?_)
    intro block new happ s'' hle hcode
    have l16 := l1.trans (l2.trans l26)
    have ret6 := l7.toRetains.trans hle
    obtain ⟨hzero, last, hin, hpart, hblocks⟩ := (hloop.behind l16 l7) happ hle hcode
    exact ⟨⟨_, count, index, proceed, s6.code.size, last⟩, _, rfl,
      { start_le := l16.size_le
        index := (hindexPin.mono (l36.toRetains.trans ret6)).pinOperand
        count := (hcountPin.mono (l46.toRetains.trans ret6)).pinOperand
        proceed := (hproceedPin.mono ret6).pinOperand
        zero := hzero
        loop := ⟨body, hbody, hin⟩
        completed := ⟨completed, hcompleted, hpart⟩ },
      body, completed, hbody, hcompleted, (a13.trans a36).hasBlocks hw.toWalk ret6 rfl hblocks⟩

/-! ## Straight expressions -/

omit hr ha

/-- What the lowering of a straight expression leaves behind: the children are served, and behind them
there is at most the call. -/
def Done (cx : Context) (e : ExprId) (s s' : State) : Prop :=
  cx.tree.IsStraight e → ∃ n, s.code.size ≤ n ∧ n ≤ s'.code.size ∧
    (∀ {y}, cx.tree.IsChild e y → cx.Served e s s' n y) ∧
    ∀ {function}, cx.tree.IsUnitCall e function → cx.pass = .emit →
      (∃ front number operands, s'.code.instructions = front ++ [.execute number operands] ∧
        front.length = n ∧ cx.env.catalog.index? function = some number) ∧
      ∀ {a t}, Forward 0 s'.code.instructions a t → s.code.size ≤ a → t ≤ n

theorem done_of_served {C' : ExprId → Prop}
    (hserved : ∀ {y}, cx.tree.IsChild e y → cx.Served e s s' s'.code.size y) (hl : cx.Lowers C s s')
    (hl' : cx.Lowers C' s' s'') (hnot : ∀ {function}, cx.tree.IsUnitCall e function → cx.pass ≠ .emit) :
    cx.Done e s s'' :=
  fun _ => ⟨s'.code.size, hl.size_le, hl'.size_le, fun hy => (hserved hy).later hl',
    fun hcall hpass => absurd hpass (hnot hcall)⟩

variable {x : Expression}

theorem kind_of_isUnitCall (hx : cx.tree.expr? e = some x) {function : String}
    (h : cx.tree.IsUnitCall e function) : x.kind = .call := by
  have hkind := h.1
  rw [Tree.kind_eq hx] at hkind
  exact Except.ok.inj hkind

theorem not_isStraight (hx : cx.tree.expr? e = some x)
    (hcall : ∀ {function}, ¬ cx.tree.IsUnitCall e function)
    (hkind : (x.kind.isValue || x.kind.isTransfer || x.kind = .cachedValue) = false) :
    ¬ cx.tree.IsStraight e := by
  rintro (⟨function, h⟩ | ⟨kind, hk, h⟩)
  · exact hcall h
  · rw [Tree.kind_eq hx] at hk
    cases Except.ok.inj hk
    rw [hkind] at h
    cases h

include hr ha

omit hr in
/-- An expression that calls nothing is done with its children. -/
theorem emits_children_bind (hw : cx.Within depth e s) (hx : cx.tree.expr? e = some x) (hcall : x.kind ≠ .call)
    {rest : Attempt Unit} (hrest : ∀ {s1}, cx.Within depth e s1 → cx.Emits F depth e s1 rest fun _ _ => True) :
    cx.Emits F depth e s (do liftM (cx.lowerChildren lower e); rest) fun _ s' => cx.Fresh e s → cx.Done e s s' := by
  refine (Emits.step (runs_lowerChildren ha hw)).bind fun _ s1 w1 l1 hserved => (hrest w1).mono ?_
  exact fun _ s2 w2 l2 _ hfresh =>
    done_of_served (hserved hfresh) l1 l2 fun h => absurd (kind_of_isUnitCall hx h) hcall

theorem emits_lowerValue (hw : cx.Within depth e s) (hx : cx.tree.expr? e = some x)
    (hcall : x.kind ≠ .call) :
    cx.Emits F depth e s (cx.lowerValue lower e) fun _ s' => cx.Fresh e s → cx.Done e s s' := by
  refine emits_children_bind ha hw hx hcall fun w1 => ?_
  cases cx.pass with
  | emit => exact .pure w1 trivial
  | setup =>
    refine .ok_bind (Tree.pinOf_eq hx) ?_
    split
    · exact .pure w1 trivial
    · refine (emits_operandOf hr w1 w1.lt).bind fun operand s2 w2 _ hoperand => ?_
      refine .ok_bind (Tree.kind_eq hx) ?_
      split
      · exact .of_resolves w2 (hr.resolves_watch w2.sound w2.lt hoperand.1.1)
      · exact .pure w2 trivial

omit ha in
theorem resolves_transferSource (hs : s.Sound cx.tree cx.env) (hx : cx.tree.expr? e = some x)
    {source : Proxy} (hsource : source.existsIn cx.tree.graph = true) :
    Resolves cx.tree cx.env F s (cx.transferSource x source) fun o s' => s'.Holds cx.env o := by
  unfold transferSource
  obtain ⟨r, hfound, hchild⟩ := hr.tree.exists_childOfKind hx fun kind =>
    kind.isValue || decide (kind = .cachedValue)
  refine .ok_bind hfound ?_
  cases r with
  | some child =>
    exact (hr.resolves_operandOf hs (hr.tree.children (hchild child rfl).1)).mono fun _ _ h => h.1
  | none => exact hr.resolves_valueOperand hs hsource

section

variable (hw : cx.Within depth e s) (hx : cx.tree.expr? e = some x)

include hw hx

theorem emits_lowerTransfer (hcall : x.kind ≠ .call) :
    cx.Emits F depth e s (cx.lowerTransfer lower e) fun _ s' => cx.Fresh e s → cx.Done e s s' := by
  refine emits_children_bind ha hw hx hcall fun w1 => ?_
  refine .ok_bind (Tree.expr_eq_ok.2 hx) ?_
  split
  · next source target hsource htarget =>
    have hsourceIn := hr.tree.source hx hsource
    have hexec : ∃ b, isExecutePin cx.tree.graph source = .ok b := by
      unfold isExecutePin
      cases hid : source.pin? with
      | none => exact ⟨false, rfl⟩
      | some id =>
        obtain ⟨pin, node, -, hpin, -⟩ := hr.exists_pin_node hsourceIn hid
        dsimp only
        rw [hpin]
        exact ⟨_, rfl⟩
    obtain ⟨b, hb⟩ := hexec
    refine .ok_bind hb ?_
    split
    · exact .pure w1 trivial
    · refine (Emits.of_resolves w1 (resolves_transferSource hr w1.sound hx hsourceIn)).bind
        fun read s2 w2 l2 hread => ?_
      refine (Emits.of_resolves w2 (hr.resolves_valueOperand w2.sound (hr.tree.proxy hx htarget))).bind
        fun written s3 w3 l3 hwritten => ?_
      cases hpass : cx.pass with
      | setup => exact .pure w3 trivial
      | emit =>
        exact .step ((runs_copyValue w3 hpass (l3.holds hread) hwritten).mono fun _ _ _ _ _ => trivial)
  · exact .throw w1 (by simp)

theorem emits_lowerCached (hcall : x.kind ≠ .call) :
    cx.Emits F depth e s (do liftM (cx.lowerChildren lower e); let _ ← cx.operandOf e)
      fun _ s' => cx.Fresh e s → cx.Done e s s' := by
  refine emits_children_bind ha hw hx hcall fun w1 => (emits_operandOf hr w1 w1.lt).bind fun _ s2 w2 _ _ => ?_
  exact .pure w2 trivial

theorem emits_lowerCall (hcall : x.kind = .call) :
    cx.Emits F depth e s (cx.lowerCall lower e) fun _ s' => (cx.Fresh e s → cx.Done e s s') ∧
      (cx.pass = .emit → Ensures s s' fun s'' =>
        cx.Formed s'' e s.visited .call s.code.size s'.code.size) := by
  unfold lowerCall
  obtain ⟨kind, hkind⟩ := hr.tree.exists_nodeKindOf hx
  refine .ok_bind hkind ?_
  split
  · next function =>
    have hformed {s s' : State} : Ensures s s' fun s'' =>
        cx.Formed s'' e s.visited .call s.code.size s'.code.size :=
      fun _ _ _ _ _ _ => ⟨fun function' h => by simp [hkind] at h, fun function' h => by simp [hkind] at h⟩
    refine (Emits.step (runs_lowerChildren ha hw)).bind fun _ s1 w1 l1 hserved => ?_
    refine (emits_callOperands hr w1 _).bind fun call s2 w2 l2 hoperands => ?_
    cases hpass : cx.pass with
    | setup =>
      refine .pure w2 ⟨fun hfresh => done_of_served (hserved hfresh) l1 l2 fun _ h => ?_, nofun⟩
      rw [hpass] at h
      cases h
    | emit =>
      refine .step ((runs_emit w2 hpass rfl hoperands.1.2).mono fun _ s3 w3 l3 ⟨happ, _⟩ =>
        ⟨fun hfresh _ => ?_, fun _ => hformed⟩)
      refine ⟨s2.code.size, Nat.le_trans l1.size_le l2.size_le, l3.size_le, fun hy => ?_, ?_⟩
      · exact (((hserved hfresh hy).mono l2.size_le).later l2).later l3
      · intro function' hunit _
        have heq : function = function' := by simpa [hkind] using hunit.2
        subst heq
        refine ⟨⟨s2.code.instructions, _, _, happ.1, rfl, hoperands.1.1⟩, fun {a t} hf ha => ?_⟩
        have hbefore : Forward 0 s2.code.instructions a t := by
          rw [happ.code, forward_append, forward_cons] at hf
          rcases hf with hf | ⟨-, d, hd, -⟩ | hf
          · exact hf
          · cases hd
          · exact absurd hf not_forward_nil
        exact (l1.trans l2).forward_le ha hbefore
  · next function =>
    refine (emits_lowerForLoop hr ha hw function).mono fun _ s' _ _ hloop =>
      ⟨fun _ hstraight => ?_, fun hpass _ _ happ s'' hle hcode => ?_⟩
    · have hnot : ∀ {function'}, ¬ cx.tree.IsUnitCall e function' := fun h => by
        simpa [hkind] using h.2
      exact absurd hstraight (not_isStraight hx hnot (by rw [hcall]; rfl))
    · have hblocks : cx.KindBlocks s'' e s.visited .call s.code.size s'.code.size := by
        intro function' hfunction
        rw [hkind] at hfunction
        cases hfunction
        exact hloop hpass happ hle hcode
      exact hblocks.formed_call
  · exact .ok_bind (Tree.expr_eq_ok.2 hx) (.throw hw (by simp))

/-! ## Every kind of expression -/

theorem emits_lowerArray :
    cx.Emits F depth e s (cx.lowerArray lower e) fun _ s' => cx.pass = .emit → Ensures s s' fun s'' =>
      cx.Formed s'' e s.visited .array s.code.size s'.code.size := by
  unfold lowerArray
  obtain ⟨kind, hkind⟩ := hr.tree.exists_nodeKindOf hx
  refine .ok_bind hkind ?_
  split
  · refine (emits_lowerIterate hr ha hw).mono fun _ s' _ _ hloop hpass _ _ happ s'' hle hcode => ?_
    have hblocks : cx.KindBlocks s'' e s.visited .array s.code.size s'.code.size := fun _ =>
      hloop hpass happ hle hcode
    exact hblocks.formed_array
  · next op hop =>
    refine (Emits.step (runs_lowerChildren ha hw)).bind fun _ s1 w1 l1 _ => ?_
    refine (Emits.of_resolves w1 (.mapM (R := fun _ _ _ => True) w1.sound (fun _ _ => trivial)
      fun pin _ s' h' _ => (hr.resolves_pinOperand h' w1.lt pin).mono fun _ _ ho => ⟨ho.1, trivial⟩)).bind
      fun operands s2 w2 _ hoperands => ?_
    cases hpass : cx.pass with
    | setup => exact .pure w2 nofun
    | emit =>
      have haccepts : s2.Accepts cx.env (.array op operands) := ⟨hoperands.1, hoperands.2.1⟩
      have hnot : cx.tree.nodeKindOf e ≠ .ok (some (.array .iterate)) := by
        intro h
        rw [hkind] at h
        cases h
        exact hop rfl
      exact .step ((runs_emit w2 hpass rfl haccepts).mono fun _ _ _ _ _ _ _ _ _ _ _ _ =>
        ⟨fun h => absurd h hnot, fun h => absurd h hnot⟩)
  · exact .ok_bind (Tree.expr_eq_ok.2 hx) (.throw hw (by simp))

theorem runs_lowerEntry (hk : x.kind = .entry) :
    cx.Runs F depth e s (cx.lowerEntry lower e) fun _ _ => True := by
  unfold lowerEntry
  refine .ok_bind (Tree.expr_eq_ok.2 hx) ?_
  cases hpass : cx.pass with
  | setup => exact (runs_lowerChildren ha hw).mono fun _ _ _ _ _ => trivial
  | emit =>
    obtain ⟨kind, hkind⟩ := hr.tree.exists_nodeKindOf hx
    refine .ok_bind hkind ?_
    refine Runs.bind (P := fun _ _ => True) (Step.ends_modify.2 ⟨?_, ?_, trivial⟩) fun _ s1 w1 _ _ => ?_
    · refine hw.of_code s.openBlocks Nat.le.refl hw.sound.code fun entry hentry => ?_
      exact (SortedMap.mem_insert hentry).symm.imp_right fun heq => by rw [heq]
    · exact { Grows.refl s with
        entries := fun hentry => (SortedMap.mem_insert hentry).symm.imp_right fun heq => by
          rw [heq]
          exact ⟨Nat.le_refl _, Nat.le_refl _, e, .inl rfl, e, .refl, hk ▸ Tree.kind_eq hx⟩
        silent := .inl hpass
        openBlocks := rfl
        laid := ⟨[], [], _, ⟨(List.append_nil _).symm, rfl⟩, .nil⟩ }
    · refine (runs_lowerChildren ha w1).bind fun _ s2 w2 _ _ => ?_
      obtain ⟨r, hfound, -⟩ := hr.tree.exists_childOfKind hx fun kind => decide (kind = .exit)
      refine .ok_bind hfound ?_
      cases r with
      | some _ => exact .pure w2 trivial
      | none => exact (runs_emit w2 hpass rfl (by simp [State.Accepts])).mono fun _ _ _ _ _ => trivial

theorem emits_lowerExpr :
    cx.Emits F depth e s (cx.lowerExpr lower e) fun _ s' => (cx.Fresh e s → cx.Done e s s') ∧
      (cx.pass = .emit → Ensures s s' fun s'' =>
        cx.Formed s'' e s.visited x.kind s.code.size s'.code.size) := by
  unfold lowerExpr
  refine .ok_bind (Tree.kind_eq hx) ?_
  -- Expressions that are not straight have nothing to leave behind but the shape of their code.
  have hbent : ∀ {kind}, x.kind = kind → kind ≠ .call →
      (kind.isValue || kind.isTransfer || kind = .cachedValue) = false →
      ∀ {m : Attempt Unit}, cx.Emits F depth e s m (fun _ s' => cx.pass = .emit → Ensures s s' fun s'' =>
        cx.Formed s'' e s.visited kind s.code.size s'.code.size) →
      cx.Emits F depth e s m fun _ s' => (cx.Fresh e s → cx.Done e s s') ∧ (cx.pass = .emit →
        Ensures s s' fun s'' => cx.Formed s'' e s.visited kind s.code.size s'.code.size) := by
    intro kind hk hcall hkind m hm
    subst hk
    refine hm.mono fun _ s' _ _ hformed => ⟨fun _ hstraight => absurd hstraight ?_, hformed⟩
    exact not_isStraight hx (fun h => hcall (kind_of_isUnitCall hx h)) hkind
  cases hk : x.kind with
  | block | noOp =>
    exact hbent hk (by decide) rfl
      (.step ((runs_lowerChildren ha hw).mono fun _ _ _ _ _ _ _ _ _ _ _ _ => ⟨trivial, trivial⟩))
  | entry =>
    exact hbent hk (by decide) rfl
      (.step ((runs_lowerEntry hr ha hw hx hk).mono fun _ _ _ _ _ _ _ _ _ _ _ _ => ⟨trivial, trivial⟩))
  | call => exact emits_lowerCall hr ha hw hx hk
  | var | literal | externalVar =>
    exact (emits_lowerValue hr ha hw hx (by rw [hk]; decide)).mono
      fun _ _ _ _ h => ⟨h, fun _ _ _ _ _ _ _ => ⟨trivial, trivial⟩⟩
  | assign | copy =>
    exact (emits_lowerTransfer hr ha hw hx (by rw [hk]; decide)).mono
      fun _ _ _ _ h => ⟨h, fun _ _ _ _ _ _ _ => ⟨trivial, trivial⟩⟩
  | cachedValue =>
    exact (emits_lowerCached hr ha hw hx (by rw [hk]; decide)).mono
      fun _ _ _ _ h => ⟨h, fun _ _ _ _ _ _ _ => ⟨trivial, trivial⟩⟩
  | exit =>
    refine hbent hk (by decide) rfl ?_
    cases hpass : cx.pass with
    | setup => exact .pure hw nofun
    | emit =>
      refine .step ((runs_emit hw hpass rfl ?_).mono fun _ _ _ _ _ _ _ _ _ _ _ _ => ⟨trivial, trivial⟩)
      simp [State.Accepts]
  | branch =>
    exact hbent hk (by decide) rfl ((emits_lowerBranch hr ha hw).mono
      fun _ _ _ _ hcode hpass => (hcode hpass).mono fun _ hcode => ⟨hcode, trivial⟩)
  | ifElse =>
    exact hbent hk (by decide) rfl ((emits_lowerIf hr ha hw).mono
      fun _ _ _ _ hcode hpass => (hcode hpass).mono fun _ hcode => ⟨hcode, trivial⟩)
  | select =>
    exact hbent hk (by decide) rfl ((emits_lowerSelect hr ha hw).mono
      fun _ _ _ _ hcode hpass => (hcode hpass).mono fun _ hcode => ⟨hcode, trivial⟩)
  | array => exact hbent hk (by decide) rfl (emits_lowerArray hr ha hw hx)

end

end Ready

end NodeGraph.Lowering.Context
