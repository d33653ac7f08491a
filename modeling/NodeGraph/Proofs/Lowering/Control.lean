import NodeGraph.Proofs.Lowering.Walk

/-!
# Control flow

The code of branches, selections and loops has a layout and the shape it should have. Jumps are emitted
without a destination and land later, so the states in between have neither; each of the three shapes of
code is followed from its first jump to the last landing, and only then seen as a whole.
-/
namespace NodeGraph.Lowering.Context

variable {cx : Context} {F : Fault → Prop} {depth base address : Nat} {e : ExprId} {s s' : State}
  {C : ExprId → Prop} {body : Step Unit} {z x y : Option ExprId} {j j' step : Instruction}
  {front rest tail : List Instruction} {count index proceed : Operand} {ms : List Nat}

/-! ## Landing -/

/-- The jump behind `front` is replaced, and goes to behind `rest`. -/
structure Replaces (s s' : State) (front rest : List Instruction) (j : Instruction) : Prop where
  size : s'.code.size = s.code.size
  eq : s' = { s with code := { s.code with instructions := front ++ j :: rest } }

theorem ends_land (hcode : s.code.instructions = front ++ j :: rest) (haddress : address = front.length)
    (hj : j.withOffset? (rest.length + 1) = some j') :
    Step.Ends F s (land address) fun _ s' => Replaces s s' front rest j' := by
  have hset : s.code.setOffset address (s.code.size - address) =
      .ok { s.code with instructions := front ++ j' :: rest } := by
    have hsize : s.code.size - address = rest.length + 1 := by
      simp only [Bytecode.size, hcode, haddress, List.length_append, List.length_cons]
      omega
    unfold Bytecode.setOffset
    rw [hsize, hcode, haddress, List.getElem?_append_right (Nat.le_refl _), Nat.sub_self,
      List.getElem?_cons_zero, Option.bind_some, hj]
    simp
    rfl
  unfold land
  rw [Step.ends_bind, Step.ends_get, Step.ends_bind, Step.ends_lift, hset, Checked.ends_ok,
    Step.ends_set]
  exact ⟨by simp [Bytecode.size, hcode], rfl⟩

section Replaces

variable (h : Replaces s s' front rest j)

include h

theorem Replaces.code : s'.code.instructions = front ++ j :: rest := by
  rw [h.eq]

theorem Replaces.grows : cx.Grows C s s' := by
  have hsize := h.size
  rw [h.eq] at hsize ⊢
  exact grows_of_code s.openBlocks (Nat.le_of_eq hsize.symm) rfl

theorem Replaces.spans_eq : s'.spans = s.spans := by rw [h.eq]

theorem Replaces.openBlocks_eq : s'.openBlocks = s.openBlocks := by
  rw [h.eq]

theorem Replaces.visited_eq : s'.visited = s.visited := by rw [h.eq]

theorem Replaces.retains : s.Retains s' := by
  rw [h.eq]
  exact { State.Retains.refl s with }

theorem Replaces.within {j₀ : Instruction} {offset : Nat} (hw : cx.Within depth e s)
    (hcode : s.code.instructions = front ++ j₀ :: rest) (hj : j₀.withOffset? offset = some j) :
    cx.Within depth e s' := by
  have hall := hw.sound.code
  rw [hcode] at hall
  have hsize := h.size
  rw [h.eq] at hsize ⊢
  refine hw.of_code s.openBlocks (Nat.le_of_eq hsize.symm) (fun i hi => ?_) fun _ => .inl
  rcases List.mem_append.1 hi with hi | hi
  · exact hall i (List.mem_append_left _ hi)
  · rcases List.mem_cons.1 hi with rfl | hi
    · obtain ⟨hops, harity⟩ := Instruction.withOffset?_eq_some hj
      exact ⟨harity _, by rw [hops]; exact (hall j₀ (by simp)).2⟩
    · exact hall i (by simp [hi])

end Replaces

theorem ends_here {Q : Nat → State → Prop} : Step.Ends F s here Q ↔ Q s.code.size s := Iff.rfl

/-- A jump is emitted without a destination. -/
theorem ends_reserve (hpass : cx.pass = .emit) (hj : j.rise = 0) :
    Step.Ends F s (cx.reserve j) fun address s' =>
      address = s.code.size ∧ Pushes s s' j s.openBlocks := by
  unfold reserve
  rw [Step.ends_bind, ends_here, Step.ends_bind]
  exact (ends_emit hpass (blocksAfter_of_rise hj _)).mono fun _ s1 h => ⟨rfl, h⟩

/-! ## Drafts -/

/-- What one of several arms does from any state reached on the way to it: it lowers an expression, if
there is one, and emits `tail`. -/
def Arm (cx : Context) (F : Fault → Prop) (depth : Nat) (e : ExprId) (storage : Storage)
    (z : Option ExprId) (tail : List Instruction) (body : Step Unit) : Prop :=
  ∀ s, cx.Within depth e s → storage.Le s.storage → cx.Runs F depth e s body fun _ s' =>
    Ensures s s' fun s'' => s''.Stretch z tail s.code.size s'.code.size

theorem Arm.later {storage storage' : Storage} (h : cx.Arm F depth e storage z tail body)
    (hle : storage.Le storage') : cx.Arm F depth e storage' z tail body :=
  fun s hw hle' => h s hw (hle.trans hle')

/-- What has become of `z`: nothing, if it failed or was met before, and else it has its code behind what
was there. -/
def Reached (z : ExprId) (s s' : State) : Prop :=
  s' = s ∧ (z ∈ s.failed ∨ z ∈ s.visited) ∨ ⟨z, s.code.size, s'.code.size⟩ ∈ s'.spans

theorem Reached.part {z : ExprId} (h : Reached z s s') : s'.Part (some z) s.code.size s'.code.size := by
  rcases h with ⟨rfl, h⟩ | h
  · exact .inr ⟨rfl, h⟩
  · exact .inl h

/-- What is met at last, but was not met before, has its code there. -/
theorem Reached.locates {z : ExprId} (h : Reached z s s') {s'' : State} (hle : s'.Retains s'')
    (hz : z ∈ s''.visited) (hnew : z ∉ s.visited) : s''.Locates z s.code.size s'.code.size := by
  rcases h with ⟨rfl, hfailed | hmet⟩ | hspan
  · exact absurd hfailed ((hle.skipped hz).resolve_left hnew)
  · exact absurd hmet hnew
  · exact .of_mem (hle.spans hspan)

/-- The step lowers a block that `e` calls, if there is one, and nothing else directly. -/
structure LowersBlock (cx : Context) (F : Fault → Prop) (depth : Nat) (e : ExprId) (z : Option ExprId)
    (body : Step Unit) : Prop where
  calls : ∀ {y}, z = some y → cx.tree.Calls e y
  ends : ∀ {s}, cx.Within depth e s → Step.Ends F s body fun _ s' => cx.Within depth e s' ∧
    cx.Lowers (z = some ·) s s' ∧ s'.Part z s.code.size s'.code.size ∧ ∀ y, z = some y → Reached y s s'

theorem LowersBlock.runs (h : cx.LowersBlock F depth e z body) (hw : cx.Within depth e s) :
    cx.Runs F depth e s body fun _ s' => s'.Part z s.code.size s'.code.size :=
  (h.ends hw).mono fun _ _ ⟨w, l, hpart, _⟩ => ⟨w, l.mono fun _ hy => .inr (h.calls hy), hpart⟩

theorem LowersBlock.arm (h : cx.LowersBlock F depth e z body) (storage : Storage) :
    cx.Arm F depth e storage z [] body := fun _ hw _ =>
  (h.runs hw).mono fun _ _ _ _ hpart _ _ _ _ hle _ => (hpart.mono hle).stretch

/-- `block` has been appended since the state `s`; jumps in it may still be without a destination. -/
structure Drafts (cx : Context) (depth : Nat) (e : ExprId) (s : State) (block : List Instruction)
    (new : List Span) (s' : State) : Prop where
  within : cx.Within depth e s'
  grows : cx.Grows (cx.tree.Involves e) s s'
  appends : Appends s s' block new

/-- So many blocks are open now, and what was known is known. -/
def Continues (s s' : State) (openBlocks : Nat) : Prop := s'.openBlocks = openBlocks ∧ s.Retains s'

/-- Besides, nothing was met. -/
structure Stays (s s' : State) (openBlocks : Nat) : Prop where
  openBlocks : s'.openBlocks = openBlocks
  retains : s.Retains s'
  visited : s'.visited = s.visited

namespace Drafts

variable {block : List Instruction} {new : List Span} {s1 : State}

theorem refl (hw : cx.Within depth e s) : cx.Drafts depth e s [] [] s :=
  ⟨hw, .refl s, by simp, by simp⟩

theorem emit (d : cx.Drafts depth e s block new s1) (hpass : cx.pass = .emit) {i : Instruction}
    {openBlocks : Nat} (hblocks : blocksAfter s1.openBlocks i = .ok openBlocks)
    (hi : s.Accepts cx.env i) :
    Step.Ends F s1 (cx.emit i) fun _ s2 =>
      cx.Drafts depth e s (block ++ [i]) new s2 ∧ Stays s1 s2 openBlocks := by
  refine (ends_emit hpass hblocks).mono fun _ s2 p => ?_
  exact ⟨⟨p.within d.within (d.grows.accepts hi), d.grows.trans p.grows, d.appends.trans p.appends⟩,
    p.openBlocks_eq, p.retains, p.visited_eq⟩

theorem reserve (d : cx.Drafts depth e s block new s1) (hpass : cx.pass = .emit) (hrise : j.rise = 0)
    (hj : s.Accepts cx.env j) :
    Step.Ends F s1 (cx.reserve j) fun address s2 => address = s.code.size + block.length ∧
      cx.Drafts depth e s (block ++ [j]) new s2 ∧ Stays s1 s2 s1.openBlocks := by
  unfold Context.reserve
  rw [Step.ends_bind, ends_here, Step.ends_bind]
  exact (d.emit hpass (blocksAfter_of_rise hrise _) hj).mono fun _ s2 h => ⟨d.appends.size, h⟩

theorem land (d : cx.Drafts depth e s (front ++ j :: rest) new s1)
    (haddress : address = s.code.size + front.length) (hj : j.withOffset? (rest.length + 1) = some j') :
    Step.Ends F s1 (land address) fun _ s2 =>
      cx.Drafts depth e s (front ++ j' :: rest) new s2 ∧ Stays s1 s2 s1.openBlocks := by
  have hcode : s1.code.instructions = (s.code.instructions ++ front) ++ j :: rest := by
    rw [d.appends.code, List.append_assoc]
  refine (ends_land hcode (by rw [haddress, List.length_append]; rfl) hj).mono fun _ s2 r => ?_
  refine ⟨⟨r.within d.within hcode hj, d.grows.trans r.grows, ?_, ?_⟩, r.openBlocks_eq, r.retains,
    r.visited_eq⟩
  · rw [r.code, List.append_assoc]
  · rw [r.spans_eq, d.appends.spans]

theorem arm (d : cx.Drafts depth e s block new s1) (hbody : cx.Arm F depth e s.storage z tail body)
    (hbase : s.code.size + block.length = base) :
    Step.Ends F s1 body fun _ s2 => ∃ B ss ms, cx.Drafts depth e s (block ++ B) (ss ++ new) s2 ∧
      Layout (cx.Own s2) base B ss ms ∧ Continues s1 s2 s1.openBlocks ∧
      ∀ {s''}, s2.Retains s'' → s''.HasCode base B → s''.Stretch z tail base (base + B.length) := by
  refine Step.Ends.mono (hbody s1 d.within d.grows.storage) ?_
  rintro _ s2 ⟨w, l, hstretch⟩
  obtain ⟨B, ss, ms, app, lay⟩ := l.laid
  have hstart : s1.code.size = base := d.appends.size.trans hbase
  have hstop : s2.code.size = base + B.length := by rw [app.size, hstart]
  rw [hstart] at lay
  refine ⟨B, ss, ms, ⟨w, d.grows.trans l.toGrows, d.appends.trans app⟩, lay,
    ⟨l.openBlocks, l.toRetains⟩, fun {s''} hle hcode => ?_⟩
  have h := hstretch app hle (by rwa [hstart])
  rwa [hstart, hstop] at h

theorem lowersBlock (d : cx.Drafts depth e s block new s1) (hbody : cx.LowersBlock F depth e z body)
    (hbase : s.code.size + block.length = base) :
    Step.Ends F s1 body fun _ s2 => ∃ B ss ms, cx.Drafts depth e s (block ++ B) (ss ++ new) s2 ∧
      Layout (cx.Own s2) base B ss ms ∧ s1.code.size = base ∧ s2.code.size = base + B.length ∧
      cx.Lowers (z = some ·) s1 s2 ∧ s2.Part z base (base + B.length) ∧ ∀ y, z = some y → Reached y s1 s2 := by
  refine (hbody.ends d.within).mono ?_
  rintro _ s2 ⟨w, l, hpart, hreached⟩
  obtain ⟨B, ss, ms, app, lay⟩ := l.laid
  have hstart : s1.code.size = base := d.appends.size.trans hbase
  have hstop : s2.code.size = base + B.length := by rw [app.size, hstart]
  rw [hstart, hstop] at hpart
  rw [hstart] at lay
  have g : cx.Grows (cx.tree.Involves e) s1 s2 := l.toGrows.mono fun _ hy => .inr (hbody.calls hy)
  exact ⟨B, ss, ms, ⟨w, d.grows.trans g, d.appends.trans app⟩, lay, hstart, hstop, l, hpart, hreached⟩

/-- A draft with a layout is lowered code. -/
theorem lowers (d : cx.Drafts depth e s block new s1) (hpass : cx.pass = .emit)
    (hopen : s1.openBlocks = s.openBlocks) (hlay : Layout (cx.Own s1) s.code.size block new ms) :
    cx.Lowers (cx.tree.Involves e) s s1 :=
  ⟨d.grows, .inl hpass, hopen, block, new, ms, d.appends, hlay⟩

end Drafts

/-! ## Alternatives -/

theorem runs_alternative (hw : cx.Within depth e s) (hpass : cx.pass = .emit) {condition : Operand}
    (hcond : s.Holds cx.env condition) {whenTrue whenFalse : Step Unit}
    {x y : Option ExprId × List Instruction} (htrue : cx.Arm F depth e s.storage x.1 x.2 whenTrue)
    (hfalse : cx.Arm F depth e s.storage y.1 y.2 whenFalse) :
    cx.Runs F depth e s (cx.alternative condition whenTrue whenFalse) fun _ s' => Ensures s s' fun s'' =>
      ∃ f : Fork, f.condition = condition ∧ f.jump = s.code.size ∧ f.join = s'.code.size ∧ f.In s'' x y := by
  unfold alternative
  have hjump : s.Accepts cx.env (.jumpIf condition 0 false) := by simpa [State.Accepts] using hcond
  have hskip : s.Accepts cx.env (.jumpForward 0) := by simp [State.Accepts]
  rw [Runs, Step.ends_bind]
  refine ((Drafts.refl hw).reserve hpass rfl hjump).mono ?_
  rintro _ s1 ⟨rfl, d1, open1, -⟩
  rw [Step.ends_bind]
  refine (d1.arm htrue rfl).mono ?_
  rintro _ s2 ⟨A, ssA, msA, d2, layA, ⟨open2, -⟩, hA⟩
  rw [Step.ends_bind]
  refine (d2.reserve hpass rfl hskip).mono ?_
  rintro _ s3 ⟨rfl, d3, open3, ret3⟩
  have d3 : cx.Drafts depth e s ([] ++ .jumpIf condition 0 false :: (A ++ [.jumpForward 0])) ssA s3 := by
    simpa using d3
  rw [Step.ends_bind]
  refine (d3.land rfl rfl).mono ?_
  rintro _ s4 ⟨d4, open4, ret4⟩
  rw [Step.ends_bind]
  have hbase : s.code.size + (.jumpIf condition (A.length + 2) false ::
      (A ++ [.jumpForward 0]) : List Instruction).length = s.code.size + 1 + A.length + 1 := by
    simp only [List.length_cons, List.length_append, List.length_nil]
    omega
  refine (Drafts.arm (by simpa using d4) hfalse hbase).mono ?_
  rintro _ s5 ⟨B, ssB, msB, d5, layB, ⟨open5, ret5⟩, hB⟩
  have d5 : cx.Drafts depth e s
      ((.jumpIf condition (A.length + 2) false :: A) ++ .jumpForward 0 :: B) (ssB ++ ssA) s5 := by
    simpa using d5
  refine (d5.land (by simp) rfl).mono ?_
  rintro _ s6 ⟨d6, open6, ret6⟩
  have ret26 : s2.Retains s6 := ret3.trans (ret4.trans (ret5.trans ret6))
  refine ⟨d6.within, d6.lowers hpass ?_ ((layout_mono layA ret26).alternative (layout_mono layB ret6)),
    .of_appends d6.appends fun hle hcode => ?_⟩
  · rw [open6, open5, open4, open3, open2, open1]
  · refine ⟨_, rfl, rfl, ?_, State.fork_in hcode (hA (ret26.trans hle)) (hB (ret6.trans hle))⟩
    rw [d6.appends.size]
    simp only [List.length_cons, List.length_append]
    omega

/-! ## Selections -/

/-- The addresses of the jumps of comparisons. -/
def comparisonJumps : Nat → Nat → List Nat
  | _, 0 => []
  | base, n + 1 => (base + 1) :: comparisonJumps (base + 2) n

section Comparisons

variable {scratch : Operand} {targets : List Nat}

theorem length_comparisons {labels : List Operand} (h : targets.length = labels.length) (base : Nat) :
    (comparisons index scratch base labels targets).length = 2 * labels.length := by
  induction labels generalizing base targets with
  | nil => cases targets <;> simp [comparisons]
  | cons label labels ih =>
    cases targets with
    | nil => simp at h
    | cons target targets =>
      simp only [List.length_cons, Nat.add_right_cancel_iff] at h
      simp only [comparisons, List.length_cons, ih h]
      omega

/-- In front of code with a layout, comparisons may jump to its marks. -/
theorem layout_comparisons (index scratch : Operand) {own : Nat → ExprId → List Instruction → List Span → Prop}
    {labels : List Operand} (h : targets.length = labels.length) {block : List Instruction} {ss : List Span}
    (hblock : Layout own (base + 2 * labels.length) block ss ms) (ht : ∀ t ∈ targets, t ∈ ms) :
    ∃ ms', Layout own base (comparisons index scratch base labels targets ++ block) ss ms' ∧
      ∀ t ∈ ms, t ∈ ms' := by
  induction labels generalizing base targets with
  | nil => exact ⟨ms, by cases targets <;> simpa [comparisons] using hblock, fun _ h => h⟩
  | cons label labels ih =>
    cases targets with
    | nil => simp at h
    | cons target targets =>
      simp only [List.length_cons, Nat.add_right_cancel_iff] at h
      have hbase : base + 2 * (label :: labels).length = base + 2 + 2 * labels.length := by
        rw [List.length_cons]
        omega
      rw [hbase] at hblock
      obtain ⟨ms', hrest, hms⟩ := ih h hblock fun t h => ht t (by simp [h])
      have hjump := Layout.jump hrest (hms target (ht target (by simp)))
        (j := .jumpIf scratch (target - (base + 1)) true) rfl
      exact ⟨_, hjump.cons_plain rfl, fun t h => by simp [hms t h]⟩

theorem ends_compareIndex (hpass : cx.pass = .emit) {labels : List Operand}
    (hw : cx.Within depth e s) (hindex : s.Holds cx.env index) (hscratch : s.Holds cx.env scratch)
    (hlabels : ∀ label ∈ labels, s.Holds cx.env label) :
    Step.Ends F s (cx.compareIndex index scratch labels) fun jumps s' =>
      jumps = comparisonJumps s.code.size labels.length ∧ cx.Within depth e s' ∧
        cx.Grows C s s' ∧ s'.openBlocks = s.openBlocks ∧ Appends s s'
          (comparisons index scratch s.code.size labels (List.replicate labels.length 0)) [] := by
  unfold compareIndex
  induction labels generalizing s with
  | nil => exact ⟨rfl, hw, .refl s, rfl, by simp [comparisons], by simp⟩
  | cons label labels ih =>
    rw [List.mapM_cons, Step.ends_bind, Step.ends_bind]
    refine (ends_emit hpass rfl).mono ?_
    intro _ s1 p1
    have w1 := p1.within hw (by
      simpa [State.Accepts] using ⟨hindex, hlabels label (by simp), hscratch⟩)
    have g1 : cx.Grows C s s1 := p1.grows
    refine (ends_reserve hpass rfl).mono ?_
    rintro _ s2 ⟨rfl, p2⟩
    have w2 := p2.within w1 (by simpa [State.Accepts] using g1.holds hscratch)
    have g2 : cx.Grows C s s2 := g1.trans p2.grows
    rw [Step.ends_bind]
    refine (ih w2 (g2.holds hindex) (g2.holds hscratch) fun label h =>
      g2.holds (hlabels label (by simp [h]))).mono ?_
    rintro jumps s3 ⟨rfl, w3, g3, hopen, app3⟩
    have size2 : s2.code.size = s.code.size + 2 := by rw [p2.size, p1.size]
    refine ⟨?_, w3, g2.trans g3, by rw [hopen, p2.openBlocks_eq, p1.openBlocks_eq], ?_⟩
    · rw [p1.size, size2]
      rfl
    · have happ := p1.appends.trans (p2.appends.trans app3)
      rw [size2] at happ
      simpa [comparisons, List.replicate_succ] using happ

/-- `block` has been emitted for the cases of `arms`, from the addresses `starts` on. -/
structure CaseBlock (cx : Context) (result : Operand) (arms : List (ExprId × Operand)) (s s' : State)
    (starts : List Nat) (block : List Instruction) (new : List Span) (ms : List Nat) : Prop where
  head : starts.head? = some s.code.size
  marks : ∀ t ∈ starts, t ∈ ms
  spans : s'.spans = new ++ s.spans
  layout : Layout (cx.Own s') s.code.size block new ms
  cases : ∀ {s''}, s'.Retains s'' → s''.HasCode s.code.size block →
    s''.Cases result (s.code.size + block.length) arms starts

/-- Cases have been emitted behind comparisons, whose jumps now go to the cases, but for the first `lead`
of them. -/
structure Cased (cx : Context) (depth : Nat) (e : ExprId) (index scratch result : Operand)
    (front : List Instruction) (labels : List Operand) (rest : List Instruction) (lead : Nat)
    (arms : List (ExprId × Operand)) (s s' : State) : Prop where
  within : cx.Within depth e s'
  grows : cx.Grows (cx.tree.Involves e) s s'
  openBlocks : s'.openBlocks = s.openBlocks
  laid : ∃ starts block new ms, cx.CaseBlock result arms s s' starts block new ms ∧
    (starts.drop lead).length = labels.length ∧ s'.code.instructions =
      front ++ (comparisons index scratch front.length labels (starts.drop lead) ++ (rest ++ block))

/-- The code before cases are emitted: the jumps of the comparisons go nowhere. -/
def uncased (index scratch : Operand) (front : List Instruction) (labels : List Operand)
    (rest : List Instruction) : List Instruction :=
  front ++ (comparisons index scratch front.length labels (List.replicate labels.length 0) ++ rest)

variable {labels : List Operand} {storage : Storage} {result : Operand}
  {arm : ExprId × Operand} {arms : List (ExprId × Operand)}

/-- The last case. -/
theorem cased_of_lowers (hcode : s.code.instructions = uncased index scratch front [] rest)
    (hw : cx.Within depth e s') (h : cx.Lowers (cx.tree.Involves e) s s')
    (harm : Ensures s s' fun s'' =>
      s''.Stretch (some arm.1) (copyCode arm.2 result) s.code.size s'.code.size) :
    cx.Cased depth e index scratch result front [] rest 1 [arm] s s' := by
  obtain ⟨block, new, ms, happ, hlay⟩ := h.laid
  refine ⟨hw, h.toGrows, h.openBlocks, [s.code.size], block, new, ms, ⟨rfl, ?_, happ.spans, hlay, ?_⟩, rfl, ?_⟩
  · intro t ht
    rw [List.mem_singleton.1 ht]
    exact hlay.start_mem
  · intro s'' hle hblock
    rw [← happ.size]
    exact harm happ hle hblock
  · rw [happ.code, hcode]
    simp [uncased, comparisons]

/-- A case that is not the last ends in a jump over the cases behind it. -/
theorem ends_followed (hpass : cx.pass = .emit) (hw : cx.Within depth e s) {others : Step Unit}
    (hcode : s.code.instructions = uncased index scratch front labels rest) (hne : arms ≠ [])
    (hstorage : storage.Le s.storage)
    (hbody : cx.Arm F depth e storage (some arm.1) (copyCode arm.2 result) body)
    (hothers : ∀ s2 rest2, cx.Within depth e s2 → storage.Le s2.storage →
      s2.code.instructions = uncased index scratch front labels rest2 →
      Step.Ends F s2 others fun _ s3 =>
        cx.Cased depth e index scratch result front labels rest2 0 arms s2 s3) :
    Step.Ends F s (do body; let toEnd ← cx.reserve (.jumpForward 0); others; land toEnd) fun _ s' =>
      cx.Cased depth e index scratch result front labels rest 1 (arm :: arms) s s' := by
  have hskip : s.Accepts cx.env (.jumpForward 0) := by simp [State.Accepts]
  rw [Step.ends_bind]
  refine ((Drafts.refl hw).arm (hbody.later hstorage) rfl).mono ?_
  rintro _ s1 ⟨A, ssA, msA, d1, layA, ⟨open1, -⟩, hA⟩
  rw [Step.ends_bind]
  refine (d1.reserve hpass rfl hskip).mono ?_
  rintro _ s2 ⟨rfl, d2, open2, ret2⟩
  have d2 : cx.Drafts depth e s (A ++ [.jumpForward 0]) ssA s2 := by simpa using d2
  have code2 : s2.code.instructions =
      uncased index scratch front labels (rest ++ A ++ [.jumpForward 0]) := by
    rw [d2.appends.code, hcode]
    simp [uncased]
  rw [Step.ends_bind]
  refine (hothers s2 _ d2.within (hstorage.trans d2.grows.storage) code2).mono ?_
  intro _ s3 c3
  obtain ⟨starts, B, ssB, msB, hB, hlen, code3⟩ := c3.laid
  rw [List.drop_zero] at hlen code3
  have code3 : s3.code.instructions = (front ++
      (comparisons index scratch front.length labels starts ++ (rest ++ A))) ++ .jumpForward 0 :: B := by
    rw [code3]
    simp
  have hend : s.code.size + ([] ++ A).length =
      (front ++ (comparisons index scratch front.length labels starts ++ (rest ++ A))).length := by
    simp only [Bytecode.size, hcode, uncased, List.nil_append, List.length_append,
      length_comparisons hlen, length_comparisons List.length_replicate]
    omega
  have size2 : s2.code.size = s.code.size + A.length + 1 := by
    rw [d2.appends.size, List.length_append]
    rfl
  refine Step.Ends.mono (ends_land code3 hend rfl) ?_
  intro _ s4 r4
  have g4 : cx.Grows (cx.tree.Involves e) s3 s4 := r4.grows
  have ret14 : s1.Retains s4 := ret2.trans (c3.grows.trans g4).toRetains
  have layA := layout_mono layA ret14
  have layB := layout_mono hB.layout r4.retains
  rw [size2] at layB
  refine ⟨r4.within c3.within code3 rfl, d2.grows.trans (c3.grows.trans g4), ?_, s.code.size :: starts,
    _, ssB ++ ssA, _, ⟨rfl, ?_, ?_, .append layA layB.skip, ?_⟩, hlen, ?_⟩
  · rw [r4.openBlocks_eq, c3.openBlocks, open2, open1]
  · intro t ht
    rcases List.mem_cons.1 ht with rfl | ht
    · exact List.mem_append_left _ layA.start_mem
    · simp [hB.marks t ht]
  · rw [r4.spans_eq, hB.spans, d2.appends.spans, List.append_assoc]
  · intro s'' hle hblock
    have hlength : s.code.size + (A ++ .jumpForward (B.length + 1) :: B : List Instruction).length =
        s.code.size + A.length + 1 + B.length := by
      simp only [List.length_append, List.length_cons]
      omega
    rw [hlength]
    refine State.Cases.cons hblock hne (size2 ▸ hB.head) (hA (ret14.trans hle)) ?_
    rw [← size2]
    exact hB.cases (r4.retains.trans hle)
  · rw [r4.code]
    simp

/-- The jump of the first comparison lands at the next instruction. What is emitted then for the other
labels is emitted for all of them. -/
theorem ends_landFirst {label : Operand} (hw : cx.Within depth e s)
    (hcode : s.code.instructions = uncased index scratch front (label :: labels) rest) :
    Step.Ends F s (land (front.length + 1)) fun _ s1 => ∃ front', front'.length = front.length + 2 ∧
      cx.Within depth e s1 ∧ s1.storage = s.storage ∧
      s1.code.instructions = uncased index scratch front' labels rest ∧
      ∀ result arms s', cx.Cased depth e index scratch result front' labels rest 1 arms s1 s' →
        cx.Cased depth e index scratch result front (label :: labels) rest 0 arms s s' := by
  have code0 : s.code.instructions = (front ++ [.equals index label scratch]) ++
      .jumpIf scratch 0 true :: (comparisons index scratch (front.length + 2) labels
        (List.replicate labels.length 0) ++ rest) := by
    rw [hcode]
    simp [uncased, comparisons, List.replicate_succ]
  have hoffset : (comparisons index scratch (front.length + 2) labels
      (List.replicate labels.length 0) ++ rest).length + 1 = s.code.size - (front.length + 1) := by
    simp only [Bytecode.size, code0, List.length_append, List.length_cons, List.length_nil]
    omega
  refine (ends_land code0 (by simp) rfl).mono fun _ s1 r1 => ?_
  rw [hoffset] at r1
  refine ⟨front ++ [.equals index label scratch,
    .jumpIf scratch (s.code.size - (front.length + 1)) true], by simp, r1.within hw code0 rfl, ?_,
    by rw [r1.code]; simp [uncased], fun result arms s' c => ?_⟩
  · rw [r1.eq]
  obtain ⟨starts, block, new, ms, hblock, hlen, code'⟩ := c.laid
  obtain ⟨rest', rfl⟩ : ∃ rest', starts = s.code.size :: rest' := by
    have hhead := hblock.head
    rw [r1.size] at hhead
    exact List.head?_eq_some_iff.1 hhead
  rw [List.drop_one, List.tail_cons] at hlen code'
  refine ⟨c.within, r1.grows.trans c.grows, c.openBlocks.trans r1.openBlocks_eq, _, block, new, ms,
    ⟨rfl, hblock.marks, ?_, ?_, ?_⟩, ?_, ?_⟩
  · rw [hblock.spans, r1.spans_eq]
  · rw [← r1.size]
    exact hblock.layout
  · intro s'' hle hcode
    have hcases := hblock.cases hle (by rwa [r1.size])
    rwa [r1.size] at hcases
  · rw [List.drop_zero, List.length_cons, hlen, List.length_cons]
  · rw [code']
    simp [comparisons]

/-- The cases of an arm each, reached by the jumps of the comparisons. -/
theorem ends_emitCases (hpass : cx.pass = .emit) {body : ExprId × Operand → Step Unit} (hne : arms ≠ [])
    (hlen : arms.length = labels.length)
    (hbody : ∀ arm ∈ arms, cx.Arm F depth e storage (some arm.1) (copyCode arm.2 result) (body arm))
    (hw : cx.Within depth e s) (hstorage : storage.Le s.storage)
    (hcode : s.code.instructions = uncased index scratch front labels rest) :
    Step.Ends F s (cx.emitCases (((comparisonJumps front.length labels.length).zip arms).map
      fun x => (some x.1, body x.2))) fun _ s' =>
        cx.Cased depth e index scratch result front labels rest 0 arms s s' := by
  induction arms generalizing labels front rest s with
  | nil => exact absurd rfl hne
  | cons arm arms ih =>
    cases labels with
    | nil => simp at hlen
    | cons label labels =>
      have hlen : arms.length = labels.length := by simpa using hlen
      have harm := hbody arm (by simp)
      cases arms with
      | nil =>
        obtain rfl := List.length_eq_zero_iff.1 hlen.symm
        refine Step.ends_bind.2 ((ends_landFirst hw hcode).mono ?_)
        rintro _ s1 ⟨front', -, w1, hstorage1, code1, hcased⟩
        refine Step.Ends.mono (harm s1 w1 (by rw [hstorage1]; exact hstorage)) fun _ s2 h => ?_
        exact hcased _ _ s2 (cased_of_lowers code1 h.1 h.2.1 h.2.2)
      | cons arm' arms =>
        cases labels with
        | nil => simp at hlen
        | cons label' labels =>
          refine Step.ends_bind.2 ((ends_landFirst hw hcode).mono ?_)
          rintro _ s1 ⟨front', hfront, w1, hstorage1, code1, hcased⟩
          refine Step.Ends.mono ?_ fun _ s2 c => hcased _ _ s2 c
          rw [← hstorage1] at hstorage
          refine ends_followed hpass w1 code1 (by simp) hstorage harm fun s2 rest2 w2 hstorage2 code2 => ?_
          rw [← hfront]
          exact ih (by simp) hlen (fun arm h => hbody arm (by simp [h])) w2 hstorage2 code2

/-- The first case and the others behind comparisons are lowered code. -/
theorem runs_cases (hpass : cx.pass = .emit) {body : ExprId × Operand → Step Unit} {first : ExprId × Operand}
    (hne : arms ≠ []) (hlen : arms.length = labels.length) (hbody : ∀ arm ∈ first :: arms,
      cx.Arm F depth e s.storage (some arm.1) (copyCode arm.2 result) (body arm)) (hw : cx.Within depth e s)
    (hindex : s.Holds cx.env index) (hscratch : s.Holds cx.env scratch)
    (hlabels : ∀ label ∈ labels, s.Holds cx.env label) :
    cx.Runs F depth e s (do
      let jumps ← cx.compareIndex index scratch labels
      cx.emitCases ((none, body first) :: (jumps.zip arms).map fun x => (some x.1, body x.2)))
      fun _ s' => Ensures s s' fun s'' => ∃ starts, starts.head? = some (s.code.size + 2 * labels.length) ∧
        s''.HasCode s.code.size (comparisons index scratch s.code.size labels starts.tail) ∧
        s''.Cases result s'.code.size (first :: arms) starts := by
  refine Step.ends_bind.2 ((ends_compareIndex (C := cx.tree.Involves e) hpass hw hindex hscratch
    hlabels).mono ?_)
  rintro _ s1 ⟨rfl, w1, g1, hopen1, app1⟩
  have code1 : s1.code.instructions =
      uncased index scratch s.code.instructions labels [] := by
    rw [app1.code]
    simp [uncased, Bytecode.size]
  have hcases : Step.Ends F s1 (cx.emitCases ((none, body first) ::
      ((comparisonJumps s.code.size labels.length).zip arms).map fun x => (some x.1, body x.2)))
      fun _ s' => cx.Cased depth e index scratch result s.code.instructions labels [] 1 (first :: arms) s1 s' := by
    cases arms with
    | nil => exact absurd rfl hne
    | cons arm arms =>
      cases labels with
      | nil => simp at hlen
      | cons label labels =>
        refine ends_followed hpass w1 code1 hne g1.storage (hbody first (by simp))
          fun s2 rest2 w2 hstorage2 code2 => ?_
        exact ends_emitCases hpass hne hlen (fun arm h => hbody arm (List.mem_cons_of_mem _ h)) w2
          hstorage2 code2
  refine hcases.mono fun _ s2 c => ?_
  obtain ⟨starts, block, new, ms, hblock, htargets, code2⟩ := c.laid
  rw [List.drop_one] at htargets code2
  have size1 : s1.code.size = s.code.size + 2 * labels.length := by
    rw [app1.size, length_comparisons List.length_replicate]
  have lay := hblock.layout
  rw [size1] at lay
  obtain ⟨ms', hlay, -⟩ := layout_comparisons index scratch htargets lay fun t ht =>
    hblock.marks t (List.mem_of_mem_tail ht)
  have happ : Appends s s2 (comparisons index scratch s.code.size labels starts.tail ++ block) new := by
    refine ⟨by rw [code2]; rfl, ?_⟩
    rw [hblock.spans, app1.spans]
    rfl
  have hlength : (comparisons index scratch s.code.size labels starts.tail).length = 2 * labels.length :=
    length_comparisons htargets _
  refine ⟨c.within, ⟨g1.trans c.grows, .inl hpass, c.openBlocks.trans hopen1, _, new, ms', happ, hlay⟩,
    .of_appends happ fun hle hcode => ⟨starts, ?_, hcode.left, ?_⟩⟩
  · rw [hblock.head, size1]
  · have hright := hcode.right
    rw [hlength, ← size1] at hright
    have h := hblock.cases hle hright
    rwa [size1, show s.code.size + 2 * labels.length + block.length = s2.code.size by
      rw [happ.size, List.length_append, hlength, Nat.add_assoc]] at h

end Comparisons

/-! ## Loops -/

/-- The code of a loop has been emitted behind its first instruction, up to where its exit lands. Nothing was
met but in its body. -/
structure Looped (cx : Context) (depth : Nat) (e : ExprId) (l : Loop) (x : Option ExprId) (s s' : State) :
    Prop where
  within : cx.Within depth e s'
  lowers : cx.Lowers (cx.tree.Involves e) s s'
  size : s'.code.size = l.last + 3
  code : Ensures s s' fun s'' => l.In s'' x
  body : ∀ {z s''}, x = some z → s'.Retains s'' → z ∈ s''.visited → z ∉ s.visited →
    s''.Locates z (l.zero + 4) l.last
  found : ∀ {z}, z ∈ s'.visited → z ∉ s.visited →
    Below cx.tree (x = some ·) z ∧ s'.Locates z (l.zero + 4) l.last

section Loops

variable (hw : cx.Within depth e s) (hpass : cx.pass = .emit) (hcount : s.Holds cx.env count)
  (hindex : s.Holds cx.env index) (hproceed : s.Holds cx.env proceed) (hplain : step.isPlain = true)
  (hstep : s.Accepts cx.env step)

include hw hpass hcount hindex hproceed hplain hstep

/-- The code of a loop behind its first instruction, in front of whatever comes next. -/
theorem ends_loop {next : Step Unit} (hbody : cx.LowersBlock F depth e x body) {first : Nat}
    (hfirst : s.code.size = first + 1) {Q : Unit → State → Prop}
    (hnext : ∀ last s', cx.Looped depth e ⟨step, count, index, proceed, first, last⟩ x s s' →
      Step.Ends F s' next Q) :
    Step.Ends F s (do
      cx.emit step
      let toDone ← cx.reserve (.jumpIf proceed 0 false)
      cx.emit (.beginBlock count index)
      body
      cx.emit .endBlock
      cx.emit (.increment index)
      cx.emit (.jumpBackward ((← here) - s.code.size))
      land toDone
      next) Q := by
  have hjump : s.Accepts cx.env (.jumpIf proceed 0 false) := by simpa [State.Accepts] using hproceed
  have hbegin : s.Accepts cx.env (.beginBlock count index) := by
    simpa [State.Accepts] using ⟨hcount, hindex⟩
  have hend : s.Accepts cx.env .endBlock := by simp [State.Accepts]
  have hincrement : s.Accepts cx.env (.increment index) := by simpa [State.Accepts] using hindex
  have hback : ∀ offset, s.Accepts cx.env (.jumpBackward offset) := by simp [State.Accepts]
  rw [Step.ends_bind]
  refine ((Drafts.refl hw).emit hpass
    (blocksAfter_of_rise (Instruction.rise_of_isPlain hplain) _) hstep).mono ?_
  rintro _ s1 ⟨d1, open1, -, met1⟩
  rw [Step.ends_bind]
  refine (d1.reserve hpass rfl hjump).mono ?_
  rintro _ s2 ⟨rfl, d2, open2, -, met2⟩
  rw [Step.ends_bind]
  refine (d2.emit hpass rfl hbegin).mono ?_
  rintro _ s3 ⟨d3, open3, -, met3⟩
  have hbase : s.code.size + ([] ++ [step] ++ [.jumpIf proceed 0 false] ++
      [.beginBlock count index] : List Instruction).length = first + 4 := by
    rw [hfirst]
    simp
  rw [Step.ends_bind]
  refine (d3.lowersBlock hbody hbase).mono ?_
  rintro _ s4 ⟨B, ss, ms, d4, lay, size3, size4, l4, part4, reached4⟩
  -- The body leaves the block of the loop open, so it can be closed.
  have hclose : blocksAfter s4.openBlocks .endBlock = .ok s.openBlocks := by
    rw [l4.openBlocks, open3, open2, open1]
    rfl
  rw [Step.ends_bind]
  refine (d4.emit hpass hclose hend).mono ?_
  rintro _ s5 ⟨d5, open5, ret5, met5⟩
  rw [Step.ends_bind]
  refine (d5.emit hpass rfl hincrement).mono ?_
  rintro _ s6 ⟨d6, open6, ret6, met6⟩
  rw [Step.ends_bind, ends_here, Step.ends_bind]
  refine (d6.emit hpass rfl (hback _)).mono ?_
  rintro _ s7 ⟨d7, open7, ret7, met7⟩
  have hoffset : s6.code.size - s.code.size = B.length + 5 := by
    rw [d6.appends.size]
    simp
  have d7 : cx.Drafts depth e s ([step] ++ .jumpIf proceed 0 false :: .beginBlock count index ::
      (B ++ [.endBlock, .increment index, .jumpBackward (B.length + 5)])) ss s7 := by
    rw [hoffset] at d7
    simpa using d7
  rw [Step.ends_bind]
  refine (d7.land rfl rfl).mono ?_
  rintro _ s8 ⟨d8, open8, ret8, met8⟩
  have d8 : cx.Drafts depth e s (loopCode step proceed count index B) ss s8 := by
    simpa [loopCode] using d8
  have ret48 : s4.Retains s8 := ret5.trans (ret6.trans (ret7.trans ret8))
  have lay8 : Layout (cx.Own s8) (s.code.size + 3) B ss ms := by
    rw [hfirst]
    exact layout_mono lay ret48
  have met3 : s3.visited = s.visited := by rw [met3, met2, met1]
  refine hnext (first + 4 + B.length) s8
    { within := d8.within
      lowers := d8.lowers hpass (by rw [open8, open7, open6, open5]) (.loop hplain lay8)
      size := ?_
      code := .of_appends d8.appends fun hle hcode => ?_
      body := fun hz hle hvisited hnew => ?_
      found := fun hz hnew => ?_ }
  · show s8.code.size = first + 4 + B.length + 3
    rw [d8.appends.size, Layout.length_loopCode, hfirst]
    omega
  · rw [hfirst] at hcode
    exact State.loop_in hcode fun _ => part4.mono (ret48.trans hle)
  · rw [← met3] at hnew
    have hat := (reached4 _ hz).locates (ret48.trans hle) hvisited hnew
    rwa [size3, size4] at hat
  · rw [← met3] at hnew
    rw [met8, met7, met6, met5] at hz
    obtain ⟨hbelow, hat⟩ := l4.found d3.within.toWalk hz hnew
    rw [size3, size4] at hat
    exact ⟨hbelow, hat.mono ret48⟩

/-- The loop that runs the block of an execution pin. -/
theorem runs_emitLoop {lower : ExprId → Step Unit}
    (hbody : cx.LowersBlock F depth e x (cx.lowerBlock lower e PinName.execute))
    (hcompleted : cx.LowersBlock F depth e y (cx.lowerBlock lower e PinName.completed)) :
    cx.Runs F depth e s (cx.emitLoop lower e count index proceed step) fun _ s' => Ensures s s' fun s'' =>
      At 0 s''.code.instructions s.code.size (.zero index) ∧ ∃ last,
        Loop.In ⟨step, count, index, proceed, s.code.size, last⟩ s'' x ∧
          s''.Part y (last + 3) s'.code.size ∧
          Loop.HasBlocks ⟨step, count, index, proceed, s.code.size, last⟩ cx.tree s'' s.visited C x y
            s.code.size s'.code.size := by
  unfold emitLoop
  refine Step.ends_bind.2 (Step.Ends.mono
    (runs_emit hw hpass rfl (by simpa [State.Accepts] using hindex)) ?_)
  rintro _ s1 ⟨w1, l1, app1, met1⟩
  have hzero : Ensures s s1 fun s'' => At 0 s''.code.instructions s.code.size (.zero index) :=
    .of_appends app1 fun _ hcode => hcode.head
  rw [Step.ends_bind, ends_here]
  refine ends_loop w1 hpass (l1.holds hcount) (l1.holds hindex) (l1.holds hproceed) hplain (l1.accepts hstep) hbody
    app1.size fun last s2 h2 => ?_
  refine Step.Ends.mono (hcompleted.ends h2.within) ?_
  rintro _ s3 ⟨w3, c3, part3, reached3⟩
  have l3 : cx.Lowers (cx.tree.Involves e) s2 s3 := c3.mono fun _ hy => .inr (hcompleted.calls hy)
  have l23 := h2.lowers.trans l3
  rw [h2.size] at part3
  refine ⟨w3, l1.trans l23, fun block new happ s'' hle hcode => ⟨(hzero.front l1 l23) happ hle hcode, last,
    ((h2.code.front h2.lowers l3).behind l1 l23) happ hle hcode, part3.mono hle, ?_, ?_⟩⟩
  -- Nothing is met but in the two blocks.
  · intro z hz hvisited hnew
    rw [← met1] at hnew
    exact .inl (h2.body hz (l3.toRetains.trans hle) hvisited hnew)
  · intro z hz hvisited hnew
    rw [← met1] at hnew
    by_cases hmet : z ∈ s2.visited
    · obtain ⟨hbelow, hat⟩ := h2.found hmet hnew
      exact .inr (.inr ⟨hbelow, hat.mono (l3.toRetains.trans hle)⟩)
    · have hat := (reached3 z hz).locates hle hvisited hmet
      rw [h2.size] at hat
      exact .inl hat

end Loops

end NodeGraph.Lowering.Context
