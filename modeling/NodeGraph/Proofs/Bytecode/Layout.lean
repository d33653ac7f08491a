import NodeGraph.Lowering.Basic

/-!
# The layout of code

Emitted code has a grammar: plain instructions, code after code, a forward jump to a mark in the code
behind it, a loop, and the code of an expression. `Layout` says that code laid out from an address on
follows the grammar, which expressions have their code in it, and which addresses are marks. The shape
of the code is read off it by induction:

* every jump lands inside the code (`lands`), and inside the code of an expression if it comes from
  there (`exists_part`);
* blocks nest, and a jump does not change the depth (`level`);
* a loop is entered at its top only (`loops`), the code of an expression at its start
  (`entered`).

Addresses are absolute: code laid out from `base` on has its first instruction at `base`.
-/
namespace NodeGraph

/-! ## Instructions -/

variable {d : Nat}

namespace Instruction

variable {i : Instruction}

/-- The offset of a forward jump. -/
def forward? : Instruction → Option Nat
  | jumpForward offset | jumpIf _ offset _ => some offset
  | _ => none

/-- The offset of a backward jump. -/
def backward? : Instruction → Option Nat
  | jumpBackward offset => some offset
  | _ => none

/-- What an instruction adds to the number of open blocks. -/
def rise : Instruction → Int
  | beginBlock .. => 1
  | endBlock => -1
  | _ => 0

/-- Whether an instruction neither jumps nor opens or closes a block. -/
def isPlain : Instruction → Bool
  | jumpForward _ | jumpBackward _ | jumpIf .. | beginBlock .. | endBlock => false
  | _ => true

theorem forward?_of_isPlain (h : i.isPlain = true) : i.forward? = none := by
  cases i <;> simp_all [isPlain, forward?]

theorem backward?_of_isPlain (h : i.isPlain = true) : i.backward? = none := by
  cases i <;> simp_all [isPlain, backward?]

theorem rise_of_isPlain (h : i.isPlain = true) : i.rise = 0 := by
  cases i <;> simp_all [isPlain, rise]

theorem backward?_of_forward? (h : i.forward? = some d) : i.backward? = none := by
  cases i <;> simp_all [forward?, backward?]

theorem rise_of_forward? (h : i.forward? = some d) : i.rise = 0 := by
  cases i <;> simp_all [forward?, rise]

end Instruction

/-! ## Addresses -/

section Addresses

variable {base a b t u : Nat} {x y : Instruction} {A B L : List Instruction}

/-- The instruction at an address of code laid out from `base` on. -/
def At (base : Nat) (code : List Instruction) (a : Nat) (x : Instruction) : Prop :=
  base ≤ a ∧ code[a - base]? = some x

theorem At.lt (h : At base A a x) : base ≤ a ∧ a < base + A.length := by
  have := (List.getElem?_eq_some_iff.1 h.2).1
  have := h.1
  omega

theorem not_at_nil : ¬ At base [] a x := fun h => by simpa using h.2

theorem at_cons : At base (y :: L) a x ↔ (a = base ∧ x = y) ∨ At (base + 1) L a x := by
  unfold At
  constructor
  · rintro ⟨hle, hget⟩
    cases hn : a - base with
    | zero =>
      rw [hn] at hget
      exact .inl ⟨by omega, by simpa using hget.symm⟩
    | succ n =>
      rw [hn] at hget
      exact .inr ⟨by omega, by rw [show a - (base + 1) = n by omega]; simpa using hget⟩
  · rintro (⟨rfl, rfl⟩ | ⟨hle, hget⟩)
    · simp
    · exact ⟨by omega, by rw [show a - base = a - (base + 1) + 1 by omega]; simpa using hget⟩

theorem at_append : At base (A ++ B) a x ↔ At base A a x ∨ At (base + A.length) B a x := by
  unfold At
  rw [List.getElem?_append]
  constructor
  · rintro ⟨hle, hget⟩
    split at hget
    · exact .inl ⟨hle, hget⟩
    · exact .inr ⟨by omega, by rw [Nat.sub_add_eq]; exact hget⟩
  · rintro (⟨hle, hget⟩ | ⟨hle, hget⟩)
    · have := (List.getElem?_eq_some_iff.1 hget).1
      exact ⟨hle, by rw [if_pos this]; exact hget⟩
    · exact ⟨by omega, by rw [if_neg (by omega), ← Nat.sub_add_eq]; exact hget⟩

/-- The addresses of a part of the code are those it has in its place. -/
theorem at_part (h : At base (A ++ (B ++ L)) a x) (hstart : base + A.length ≤ a)
    (hstop : a < base + A.length + B.length) : At (base + A.length) B a x := by
  rw [at_append, at_append] at h
  rcases h with h | h | h
  · have := h.lt
    omega
  · exact h
  · have := h.lt
    omega

/-- There is a forward jump from `a` to `t`. -/
def Forward (base : Nat) (code : List Instruction) (a t : Nat) : Prop :=
  ∃ x, At base code a x ∧ ∃ d, x.forward? = some d ∧ t = a + d

theorem Forward.le (h : Forward base A a t) : base ≤ a := by
  obtain ⟨x, hx, -⟩ := h
  exact hx.1

/-- There is a backward jump from `a` to `u`. -/
def Backward (base : Nat) (code : List Instruction) (a u : Nat) : Prop :=
  ∃ x, At base code a x ∧ ∃ d, x.backward? = some d ∧ u + d = a

/-- A jump is a forward or a backward one. -/
theorem jump_of_jumpTarget? {x : Instruction} {code : List Instruction} {target : Nat} (hx : At base code a x)
    (h : x.jumpTarget? a = some target) : Forward base code a target ∨ Backward base code a target := by
  cases x with
  | jumpForward offset | jumpIf _ offset _ =>
    exact .inl ⟨_, hx, offset, rfl, (Option.some.inj h).symm⟩
  | jumpBackward offset =>
    simp only [Instruction.jumpTarget?] at h
    split at h
    · exact .inr ⟨_, hx, offset, rfl, by cases h; omega⟩
    · cases h
  | _ => cases h

theorem not_forward_nil : ¬ Forward base [] a t := fun ⟨_, h, _⟩ => not_at_nil h

theorem not_backward_nil : ¬ Backward base [] a u := fun ⟨_, h, _⟩ => not_at_nil h

theorem forward_cons : Forward base (y :: L) a t ↔
    (a = base ∧ ∃ d, y.forward? = some d ∧ t = a + d) ∨ Forward (base + 1) L a t := by
  simp only [Forward, at_cons]
  grind

theorem backward_cons : Backward base (y :: L) a u ↔
    (a = base ∧ ∃ d, y.backward? = some d ∧ u + d = a) ∨ Backward (base + 1) L a u := by
  simp only [Backward, at_cons]
  grind

theorem forward_append : Forward base (A ++ B) a t ↔
    Forward base A a t ∨ Forward (base + A.length) B a t := by
  simp only [Forward, at_append]
  grind

theorem backward_append : Backward base (A ++ B) a u ↔
    Backward base A a u ∨ Backward (base + A.length) B a u := by
  simp only [Backward, at_append]
  grind

/-- A jump in front of code adds one forward jump. -/
theorem forward_jump (hy : y.forward? = some d) : Forward base (y :: L) a t ↔
    (a = base ∧ t = base + d) ∨ Forward (base + 1) L a t := by
  simp only [forward_cons, hy, Option.some.injEq, exists_eq_left']
  grind

theorem backward_jump (hy : y.forward? = some d) : Backward base (y :: L) a u ↔ Backward (base + 1) L a u := by
  rw [backward_cons, Instruction.backward?_of_forward? hy]
  simp

/-- The blocks opened less the blocks closed before an address. -/
def blockDepth : Nat → List Instruction → Nat → Int
  | _, [], _ => 0
  | base, x :: code, a => (if base < a then x.rise else 0) + blockDepth (base + 1) code a

theorem blockDepth_nil : blockDepth base [] a = 0 := rfl

theorem blockDepth_cons : blockDepth base (y :: L) a =
    (if base < a then y.rise else 0) + blockDepth (base + 1) L a := rfl

theorem blockDepth_append :
    blockDepth base (A ++ B) a = blockDepth base A a + blockDepth (base + A.length) B a := by
  induction A generalizing base with
  | nil => rw [List.nil_append, blockDepth_nil, Int.zero_add]; rfl
  | cons x A ih =>
    rw [List.cons_append, blockDepth_cons, blockDepth_cons, ih, Int.add_assoc, List.length_cons,
      Nat.add_assoc, Nat.add_comm 1]

theorem blockDepth_of_le (h : a ≤ base) : blockDepth base A a = 0 := by
  induction A generalizing base with
  | nil => rfl
  | cons x A ih =>
    rw [blockDepth_cons, if_neg (by omega), ih (by omega)]
    rfl

end Addresses

/-! ## The grammar -/

/-- The code of a loop; see `Lowering.Context.emitLoop`. -/
def loopCode (step : Instruction) (proceed count index : Operand) (body : List Instruction) :
    List Instruction :=
  step :: .jumpIf proceed (body.length + 5) false :: .beginBlock count index ::
    (body ++ [.endBlock, .increment index, .jumpBackward (body.length + 5)])

/-- Code laid out from an address on, the expressions that have their code in it, the one finished last
first, and its marks, which are the addresses that jumps in front of the code may go to. The code of
an expression satisfies `own`. -/
inductive Layout (own : Nat → ExprId → List Instruction → List Lowering.Span → Prop) :
    Nat → List Instruction → List Lowering.Span → List Nat → Prop
  | nil {base} : Layout own base [] [] [base]
  | plain {base i} (hi : i.isPlain = true) : Layout own base [i] [] [base, base + 1]
  | append {base A B ss ss' ms ms'} (hA : Layout own base A ss ms)
      (hB : Layout own (base + A.length) B ss' ms') : Layout own base (A ++ B) (ss' ++ ss) (ms ++ ms')
  | jump {base j L ss ms t} (hL : Layout own (base + 1) L ss ms) (ht : t ∈ ms)
      (hj : j.forward? = some (t - base)) : Layout own base (j :: L) ss (base :: ms)
  | loop {base step proceed count index body ss ms} (hstep : step.isPlain = true)
      (hbody : Layout own (base + 3) body ss ms) :
      Layout own base (loopCode step proceed count index body) ss [base, base + (body.length + 6)]
  | expr {base A ss ms} (e : ExprId) (hA : Layout own base A ss ms) (he : own base e A ss) :
      Layout own base A (⟨e, base, base + A.length⟩ :: ss) [base, base + A.length]

namespace Layout

variable {own own' : Nat → ExprId → List Instruction → List Lowering.Span → Prop} {base a t u : Nat}
  {A : List Instruction} {ss : List Lowering.Span} {ms : List Nat} {step i j : Instruction}
  {proceed count index : Operand}

theorem mono (h : Layout own base A ss ms) (hown : ∀ base e A ss, own base e A ss → own' base e A ss) :
    Layout own' base A ss ms := by
  induction h with
  | nil => exact .nil
  | plain hi => exact .plain hi
  | append _ _ ihA ihB => exact .append ihA ihB
  | jump _ ht hj ih => exact .jump ih ht hj
  | loop hstep _ ih => exact .loop hstep ih
  | expr e _ he ih => exact .expr e ih (hown _ _ _ _ he)

theorem length_loopCode : (loopCode step proceed count index A).length = A.length + 6 := by
  simp [loopCode]

theorem at_loopCode {x : Instruction} :
    At base (loopCode step proceed count index A) a x ↔
      (a = base ∧ x = step) ∨ (a = base + 1 ∧ x = .jumpIf proceed (A.length + 5) false) ∨
      (a = base + 2 ∧ x = .beginBlock count index) ∨ At (base + 3) A a x ∨
      (a = base + (A.length + 3) ∧ x = .endBlock) ∨ (a = base + (A.length + 4) ∧ x = .increment index) ∨
      (a = base + (A.length + 5) ∧ x = .jumpBackward (A.length + 5)) := by
  simp only [loopCode, at_cons, at_append, not_at_nil, or_false, Nat.add_assoc, Nat.reduceAdd,
    Nat.add_comm 3]

/-- Besides those of its body, a loop has one forward jump, to behind it. -/
theorem forward_loopCode (hstep : step.isPlain = true) : Forward base (loopCode step proceed count index A) a t ↔
      (a = base + 1 ∧ t = base + (A.length + 6)) ∨ Forward (base + 3) A a t := by
  constructor
  · rintro ⟨x, hx, d, hd, rfl⟩
    rcases at_loopCode.1 hx with ⟨-, rfl⟩ | ⟨rfl, rfl⟩ | ⟨-, rfl⟩ | hx | ⟨-, rfl⟩ | ⟨-, rfl⟩ | ⟨-, rfl⟩
    · simp [Instruction.forward?_of_isPlain hstep] at hd
    · cases hd
      exact .inl ⟨rfl, by omega⟩
    · cases hd
    · exact .inr ⟨x, hx, d, hd, rfl⟩
    all_goals cases hd
  · rintro (⟨rfl, rfl⟩ | ⟨x, hx, hd⟩)
    · exact ⟨_, at_loopCode.2 (.inr (.inl ⟨rfl, rfl⟩)), _, rfl, by omega⟩
    · exact ⟨x, at_loopCode.2 (.inr (.inr (.inr (.inl hx)))), hd⟩

/-- Besides those of its body, a loop has one backward jump, to its top. -/
theorem backward_loopCode (hstep : step.isPlain = true) : Backward base (loopCode step proceed count index A) a u ↔
      (a = base + (A.length + 5) ∧ u = base) ∨ Backward (base + 3) A a u := by
  constructor
  · rintro ⟨x, hx, d, hd, hu⟩
    rcases at_loopCode.1 hx with ⟨-, rfl⟩ | ⟨-, rfl⟩ | ⟨-, rfl⟩ | hx | ⟨-, rfl⟩ | ⟨-, rfl⟩ | ⟨rfl, rfl⟩
    · simp [Instruction.backward?_of_isPlain hstep] at hd
    · cases hd
    · cases hd
    · exact .inr ⟨x, hx, d, hd, hu⟩
    · cases hd
    · cases hd
    · cases hd
      exact .inl ⟨rfl, by omega⟩
  · rintro (⟨rfl, rfl⟩ | ⟨x, hx, hd⟩)
    · exact ⟨_, at_loopCode.2 (.inr (.inr (.inr (.inr (.inr (.inr ⟨rfl, rfl⟩)))))), _, rfl, by omega⟩
    · exact ⟨x, at_loopCode.2 (.inr (.inr (.inr (.inl hx)))), hd⟩

/-- Both ends of the code are marks. -/
theorem start_mem (h : Layout own base A ss ms) : base ∈ ms := by
  induction h <;> simp_all

theorem stop_mem (h : Layout own base A ss ms) : base + A.length ∈ ms := by
  induction h with
  | nil | plain _ => simp
  | append _ _ _ ihB => simp [← Nat.add_assoc, ihB]
  | jump _ _ _ ih => simp_all [Nat.add_comm 1, Nat.add_assoc]
  | loop _ _ _ => simp [length_loopCode]
  | expr _ _ _ _ => simp

/-- Marks are addresses of the code or the one behind it. -/
theorem mark_bounds (h : Layout own base A ss ms) : ∀ m ∈ ms, base ≤ m ∧ m ≤ base + A.length := by
  induction h with
  | nil | plain _ => simp
  | append _ _ ihA ihB =>
    intro m hm
    rw [List.length_append]
    rcases List.mem_append.1 hm with hm | hm
    · have := ihA m hm; omega
    · have := ihB m hm; omega
  | jump _ _ _ ih =>
    intro m hm
    rw [List.length_cons]
    rcases List.mem_cons.1 hm with rfl | hm
    · omega
    · have := ih m hm; omega
  | loop _ _ _ =>
    intro m hm
    rw [length_loopCode]
    simp only [List.mem_cons, List.not_mem_nil, or_false] at hm
    omega
  | expr _ _ _ _ =>
    intro m hm
    simp only [List.mem_cons, List.not_mem_nil, or_false] at hm
    omega

theorem cons_plain (h : Layout own (base + 1) A ss ms) (hi : i.isPlain = true) :
    Layout own base (i :: A) ss (base :: (base + 1) :: ms) := by
  simpa using Layout.append (.plain hi) h

/-- A jump over code. -/
theorem skip (h : Layout own (base + 1) A ss ms) :
    Layout own base (.jumpForward (A.length + 1) :: A) ss (base :: ms) :=
  .jump h h.stop_mem (by simp only [Instruction.forward?]; congr 1; omega)

/-- Two alternatives; see `Lowering.Context.alternative`. -/
theorem alternative {B : List Instruction} {ss' : List Lowering.Span} {ms' : List Nat}
    {condition : Operand} {expected : Bool} (hA : Layout own (base + 1) A ss ms)
    (hB : Layout own (base + 1 + A.length + 1) B ss' ms') :
    Layout own base (.jumpIf condition (A.length + 2) expected ::
      (A ++ .jumpForward (B.length + 1) :: B)) (ss' ++ ss)
      (base :: (ms ++ (base + 1 + A.length) :: ms')) := by
  have ht : base + 1 + A.length + 1 ∈ ms ++ (base + 1 + A.length) :: ms' := by
    simp [hB.start_mem]
  refine .jump (.append hA hB.skip) ht ?_
  simp only [Instruction.forward?]
  congr 1
  omega

/-! ## Jumps -/

/-- Jumps land inside the code, behind or in front of where they come from. -/
structure Lands (base : Nat) (code : List Instruction) : Prop where
  forward : ∀ {a t}, Forward base code a t → base ≤ a ∧ a < t ∧ t ≤ base + code.length
  backward : ∀ {a x d}, At base code a x → x.backward? = some d → 1 ≤ d ∧ base + d ≤ a

theorem Lands.loop {code : List Instruction} (h : Lands base code) (hu : Backward base code a u) :
    base ≤ u ∧ u < a ∧ a < base + code.length := by
  obtain ⟨x, hx, d, hd, hsum⟩ := hu
  have := h.backward hx hd
  have := hx.lt
  omega

theorem lands (h : Layout own base A ss ms) : Lands base A := by
  induction h with
  | nil => exact ⟨fun h => absurd h not_forward_nil, fun h => absurd h not_at_nil⟩
  | plain hi =>
    refine ⟨?_, ?_⟩
    · rintro a t ⟨x, hx, d, hd, -⟩
      rcases at_cons.1 hx with ⟨-, rfl⟩ | hx
      · simp [Instruction.forward?_of_isPlain hi] at hd
      · exact absurd hx not_at_nil
    · intro a x d hx hd
      rcases at_cons.1 hx with ⟨-, rfl⟩ | hx
      · simp [Instruction.backward?_of_isPlain hi] at hd
      · exact absurd hx not_at_nil
  | append _ _ ihA ihB =>
    refine ⟨?_, ?_⟩
    · intro a t h
      rw [List.length_append]
      rcases forward_append.1 h with h | h
      · have := ihA.forward h; omega
      · have := ihB.forward h; omega
    · intro a x d hx hd
      rcases at_append.1 hx with hx | hx
      · exact ihA.backward hx hd
      · have := ihB.backward hx hd; omega
  | @jump base j L ss ms t hL ht hj ih =>
    have hbounds := hL.mark_bounds t ht
    refine ⟨?_, ?_⟩
    · intro a t' h
      rw [List.length_cons]
      rcases (forward_jump hj).1 h with ⟨rfl, rfl⟩ | h
      · omega
      · have := ih.forward h; omega
    · intro a x d hx hd
      rcases at_cons.1 hx with ⟨-, rfl⟩ | hx
      · simp [Instruction.backward?_of_forward? hj] at hd
      · have := ih.backward hx hd; omega
  | loop hstep _ ih =>
    refine ⟨?_, ?_⟩
    · intro a t h
      rw [length_loopCode]
      rcases (forward_loopCode hstep).1 h with ⟨rfl, rfl⟩ | h
      · omega
      · have := ih.forward h; omega
    · intro a x d hx hd
      rcases at_loopCode.1 hx with ⟨-, rfl⟩ | ⟨-, rfl⟩ | ⟨-, rfl⟩ | hx | ⟨-, rfl⟩ | ⟨-, rfl⟩ | ⟨rfl, rfl⟩
      · simp [Instruction.backward?_of_isPlain hstep] at hd
      · cases hd
      · cases hd
      · have := ih.backward hx hd; omega
      · cases hd
      · cases hd
      · cases hd; omega
  | expr _ _ _ ih => exact ih

/-! ## Blocks -/

/-- Blocks nest, jumps stay at their depth, and marks lie outside all blocks. -/
structure Level (base : Nat) (code : List Instruction) (ms : List Nat) : Prop where
  nested : ∀ a, 0 ≤ blockDepth base code a
  balanced : ∀ {a}, base + code.length ≤ a → blockDepth base code a = 0
  forward : ∀ {a t}, Forward base code a t → blockDepth base code a = blockDepth base code t
  backward : ∀ {a u}, Backward base code a u → blockDepth base code a = blockDepth base code u
  marks : ∀ m ∈ ms, blockDepth base code m = 0

theorem blockDepth_loopCode (hstep : step.isPlain = true) :
    blockDepth base (loopCode step proceed count index A) a =
      (if base + 2 < a then 1 else 0) + blockDepth (base + 3) A a -
        (if base + (A.length + 3) < a then 1 else 0) := by
  simp only [loopCode, blockDepth_cons, blockDepth_append, blockDepth_nil,
    Instruction.rise_of_isPlain hstep, Nat.add_assoc, Nat.reduceAdd, Nat.add_comm 3]
  simp only [Instruction.rise]
  split <;> split <;> simp <;> omega

section Level

variable {B : List Instruction} {ss' : List Lowering.Span} {ms' : List Nat}

theorem Level.plain (hi : i.isPlain = true) (ms : List Nat) : Level base [i] ms := by
  have hzero : ∀ a, blockDepth base [i] a = 0 := fun a => by
    simp [blockDepth_cons, blockDepth_nil, Instruction.rise_of_isPlain hi]
  exact ⟨fun a => by simp [hzero], fun _ => hzero _, fun _ => by rw [hzero, hzero],
    fun _ => by rw [hzero, hzero], fun _ _ => hzero _⟩

theorem Level.append (hA : Layout own base A ss ms) (hB : Layout own (base + A.length) B ss' ms')
    (hlA : Level base A ms) (hlB : Level (base + A.length) B ms') :
    Level base (A ++ B) (ms ++ ms') := by
  have hlandsA := hA.lands
  have hlandsB := hB.lands
  have hfront : ∀ a ≤ base + A.length, blockDepth (base + A.length) B a = 0 := fun a =>
    blockDepth_of_le
  refine ⟨fun a => ?_, fun {a} ha => ?_, fun {a t} h => ?_, fun {a u} h => ?_, fun m hm => ?_⟩
  · have := hlA.nested a
    have := hlB.nested a
    rw [blockDepth_append]
    omega
  · rw [List.length_append] at ha
    rw [blockDepth_append, hlA.balanced (by omega), hlB.balanced (by omega)]
    rfl
  · rw [blockDepth_append, blockDepth_append]
    rcases forward_append.1 h with h | h
    · have := hlandsA.forward h
      rw [hlA.forward h, hfront a (by omega), hfront t (by omega)]
    · have := hlandsB.forward h
      rw [hlB.forward h, hlA.balanced (by omega), hlA.balanced (by omega)]
  · rw [blockDepth_append, blockDepth_append]
    rcases backward_append.1 h with h | h
    · have := hlandsA.loop h
      rw [hlA.backward h, hfront a (by omega), hfront u (by omega)]
    · have := hlandsB.loop h
      rw [hlB.backward h, hlA.balanced (by omega), hlA.balanced (by omega)]
  · rw [blockDepth_append]
    rcases List.mem_append.1 hm with hm | hm
    · have := hA.mark_bounds m hm
      rw [hlA.marks m hm, hfront m (by omega)]
      rfl
    · have := hB.mark_bounds m hm
      rw [hlB.marks m hm, hlA.balanced (by omega)]
      rfl

theorem Level.jump (hA : Layout own (base + 1) A ss ms) (ht : t ∈ ms) (hj : j.forward? = some (t - base))
    (hl : Level (base + 1) A ms) : Level base (j :: A) (base :: ms) := by
  have hcons : ∀ a, blockDepth base (j :: A) a = blockDepth (base + 1) A a := fun a => by
    simp [blockDepth_cons, Instruction.rise_of_forward? hj]
  have hbounds := hA.mark_bounds t ht
  refine ⟨fun a => ?_, fun {a} ha => ?_, fun {a t'} h => ?_, fun {a u} h => ?_, fun m hm => ?_⟩
  · rw [hcons]
    exact hl.nested a
  · rw [List.length_cons] at ha
    rw [hcons, hl.balanced (by omega)]
  · rw [hcons, hcons]
    rcases (forward_jump hj).1 h with ⟨rfl, rfl⟩ | h
    · rw [show a + (t - a) = t by omega, hl.marks t ht, blockDepth_of_le (by omega)]
    · exact hl.forward h
  · rw [hcons, hcons]
    exact hl.backward ((backward_jump hj).1 h)
  · rw [hcons]
    rcases List.mem_cons.1 hm with rfl | hm
    · exact blockDepth_of_le (by omega)
    · exact hl.marks m hm

theorem Level.loopCode (hstep : step.isPlain = true) (hA : Layout own (base + 3) A ss ms)
    (hl : Level (base + 3) A ms) :
    Level base (loopCode step proceed count index A) [base, base + (A.length + 6)] := by
  have hlands := hA.lands
  -- Inside the body, the block that the loop opens is open.
  have hinside : ∀ a, base + 3 ≤ a → a ≤ base + (A.length + 3) →
      blockDepth base (NodeGraph.loopCode step proceed count index A) a =
        1 + blockDepth (base + 3) A a := fun a h1 h2 => by
    rw [blockDepth_loopCode hstep, if_pos (by omega), if_neg (by omega)]
    omega
  have houtside : ∀ a, a < base + 3 ∨ base + (A.length + 3) < a →
      blockDepth base (NodeGraph.loopCode step proceed count index A) a = 0 := fun a h => by
    rw [blockDepth_loopCode hstep]
    rcases h with h | h
    · rw [if_neg (by omega), if_neg (by omega), blockDepth_of_le (by omega)]
      rfl
    · rw [if_pos (by omega), if_pos (by omega), hl.balanced (by omega)]
      rfl
  refine ⟨fun a => ?_, fun {a} ha => ?_, fun {a t} h => ?_, fun {a u} h => ?_, fun m hm => ?_⟩
  · by_cases h : a < base + 3 ∨ base + (A.length + 3) < a
    · exact Int.le_of_eq (houtside a h).symm
    · have := hl.nested a
      rw [hinside a (by omega) (by omega)]
      omega
  · rw [length_loopCode] at ha
    exact houtside a (by omega)
  · rcases (forward_loopCode hstep).1 h with ⟨rfl, rfl⟩ | h
    · rw [houtside _ (by omega), houtside _ (by omega)]
    · have := hlands.forward h
      rw [hinside a (by omega) (by omega), hinside t (by omega) (by omega), hl.forward h]
  · rcases (backward_loopCode hstep).1 h with ⟨rfl, rfl⟩ | h
    · rw [houtside _ (by omega), houtside _ (by omega)]
    · have := hlands.loop h
      rw [hinside a (by omega) (by omega), hinside u (by omega) (by omega), hl.backward h]
  · simp only [List.mem_cons, List.not_mem_nil, or_false] at hm
    exact houtside m (by omega)

theorem Level.ends (hl : Level base A ms) : Level base A [base, base + A.length] := by
  refine { hl with marks := fun m hm => ?_ }
  simp only [List.mem_cons, List.not_mem_nil, or_false] at hm
  rcases hm with rfl | rfl
  · exact blockDepth_of_le (by omega)
  · exact hl.balanced (by omega)

end Level

theorem level (h : Layout own base A ss ms) : Level base A ms := by
  induction h with
  | nil =>
    exact ⟨fun a => by simp [blockDepth_nil], fun _ => blockDepth_nil,
      fun h => absurd h not_forward_nil, fun h => absurd h not_backward_nil, fun _ _ => blockDepth_nil⟩
  | plain hi => exact .plain hi _
  | append hA hB ihA ihB => exact .append hA hB ihA ihB
  | jump hL ht hj ih => exact .jump hL ht hj ih
  | loop hstep hbody ih => exact .loopCode hstep hbody ih
  | expr _ _ _ ih => exact ih.ends

/-! ## Loops -/

/-- A loop reaches from the target of a backward jump to the jump. It is entered at its top, it is
nested in or apart from other loops, and marks do not lie behind its top. -/
structure Loops (base : Nat) (code : List Instruction) (ms : List Nat) : Prop where
  entered : ∀ {a t j u}, Forward base code a t → Backward base code j u → ¬ (a < u ∧ u < t ∧ t ≤ j)
  nested : ∀ {j u j' u'}, Backward base code j u → Backward base code j' u' →
    ¬ (u' < u ∧ u ≤ j' ∧ j' < j)
  marks : ∀ m ∈ ms, ∀ {j u}, Backward base code j u → m ≤ u ∨ j < m

theorem not_backward_plain (hi : i.isPlain = true) : ¬ Backward base [i] a u := by
  intro h
  rcases backward_cons.1 h with ⟨-, d, hd, -⟩ | h
  · simp [Instruction.backward?_of_isPlain hi] at hd
  · exact not_backward_nil h

section Loops

variable {B : List Instruction} {ss' : List Lowering.Span} {ms' : List Nat}

theorem Loops.append (hA : Layout own base A ss ms) (hB : Layout own (base + A.length) B ss' ms')
    (hlA : Loops base A ms) (hlB : Loops (base + A.length) B ms') :
    Loops base (A ++ B) (ms ++ ms') := by
  have hlandsA := hA.lands
  have hlandsB := hB.lands
  refine ⟨fun {a t j u} hf hb => ?_, fun {j u j' u'} hb hb' => ?_, fun m hm j u hb => ?_⟩
  · rcases forward_append.1 hf with hf | hf <;> rcases backward_append.1 hb with hb | hb
    · exact hlA.entered hf hb
    · have := hlandsA.forward hf
      have := hlandsB.loop hb
      omega
    · have := hlandsB.forward hf
      have := hlandsA.loop hb
      omega
    · exact hlB.entered hf hb
  · rcases backward_append.1 hb with hb | hb <;> rcases backward_append.1 hb' with hb' | hb'
    · exact hlA.nested hb hb'
    · have := hlandsA.loop hb
      have := hlandsB.loop hb'
      omega
    · have := hlandsB.loop hb
      have := hlandsA.loop hb'
      omega
    · exact hlB.nested hb hb'
  · rcases List.mem_append.1 hm with hm | hm <;> rcases backward_append.1 hb with hb | hb
    · exact hlA.marks m hm hb
    · have := hA.mark_bounds m hm
      have := hlandsB.loop hb
      omega
    · have := hB.mark_bounds m hm
      have := hlandsA.loop hb
      omega
    · exact hlB.marks m hm hb

theorem Loops.jump (hA : Layout own (base + 1) A ss ms) (ht : t ∈ ms) (hj : j.forward? = some (t - base))
    (hl : Loops (base + 1) A ms) : Loops base (j :: A) (base :: ms) := by
  refine ⟨fun {a t' j' u} hf hb => ?_, fun {j' u j'' u'} hb hb' => ?_, fun m hm j' u hb => ?_⟩
  · rw [backward_jump hj] at hb
    rcases (forward_jump hj).1 hf with ⟨rfl, rfl⟩ | hf
    · have := hA.mark_bounds t ht
      have := hl.marks t ht hb
      omega
    · exact hl.entered hf hb
  · exact hl.nested ((backward_jump hj).1 hb) ((backward_jump hj).1 hb')
  · rw [backward_jump hj] at hb
    rcases List.mem_cons.1 hm with rfl | hm
    · have := hA.lands.loop hb
      omega
    · exact hl.marks m hm hb

theorem Loops.loopCode (hstep : step.isPlain = true) (hA : Layout own (base + 3) A ss ms)
    (hl : Loops (base + 3) A ms) :
    Loops base (loopCode step proceed count index A) [base, base + (A.length + 6)] := by
  have hlands := hA.lands
  refine ⟨fun {a t j u} hf hb => ?_, fun {j u j' u'} hb hb' => ?_, fun m hm j u hb => ?_⟩
  · rcases (forward_loopCode hstep).1 hf with ⟨rfl, rfl⟩ | hf <;>
      rcases (backward_loopCode hstep).1 hb with ⟨rfl, rfl⟩ | hb
    · omega
    · have := hlands.loop hb
      omega
    · have := hlands.forward hf
      omega
    · exact hl.entered hf hb
  · rcases (backward_loopCode hstep).1 hb with ⟨rfl, rfl⟩ | hb <;>
      rcases (backward_loopCode hstep).1 hb' with ⟨rfl, rfl⟩ | hb'
    · omega
    · have := hlands.loop hb'
      omega
    · have := hlands.loop hb
      omega
    · exact hl.nested hb hb'
  · simp only [List.mem_cons, List.not_mem_nil, or_false] at hm
    rcases (backward_loopCode hstep).1 hb with ⟨rfl, rfl⟩ | hb
    · omega
    · have := hlands.loop hb
      omega

end Loops

theorem loops (h : Layout own base A ss ms) : Loops base A ms := by
  induction h with
  | nil =>
    exact ⟨fun _ h => absurd h not_backward_nil, fun h => absurd h not_backward_nil,
      fun _ _ _ _ h => absurd h not_backward_nil⟩
  | plain hi =>
    exact ⟨fun _ h => absurd h (not_backward_plain hi), fun h => absurd h (not_backward_plain hi),
      fun _ _ _ _ h => absurd h (not_backward_plain hi)⟩
  | append hA hB ihA ihB => exact .append hA hB ihA ihB
  | jump hL ht hj ih => exact .jump hL ht hj ih
  | loop hstep hbody ih => exact .loopCode hstep hbody ih
  | expr _ hA _ ih =>
    refine { ih with marks := fun m hm j u hb => ?_ }
    have := hA.lands.loop hb
    simp only [List.mem_cons, List.not_mem_nil, or_false] at hm
    omega

/-! ## Expressions -/

/-- The code of an expression is a part of the code, laid out in its place. -/
theorem exists_part (h : Layout own base A ss ms) : ∀ sp ∈ ss, ∃ front B rest ss' ms',
    A = front ++ (B ++ rest) ∧ sp.start = base + front.length ∧ sp.stop = sp.start + B.length ∧
      Layout own sp.start B ss' ms' ∧ own sp.start sp.expr B ss' ∧ ∀ x ∈ ss', x ∈ ss := by
  induction h with
  | nil | plain _ => simp
  | @append base A B ss ss' _ _ _ _ ihA ihB =>
    intro sp hsp
    rcases List.mem_append.1 hsp with hsp | hsp
    · obtain ⟨front, C, rest, cs, ms', rfl, hstart, hstop, hC, hown, hcs⟩ := ihB sp hsp
      refine ⟨A ++ front, C, rest, cs, ms', by simp, ?_, hstop, hC, hown, fun x hx => ?_⟩
      · rw [hstart, List.length_append, Nat.add_assoc]
      · exact List.mem_append_left _ (hcs x hx)
    · obtain ⟨front, C, rest, cs, ms', rfl, hstart, hstop, hC, hown, hcs⟩ := ihA sp hsp
      refine ⟨front, C, rest ++ B, cs, ms', by simp, hstart, hstop, hC, hown, fun x hx => ?_⟩
      exact List.mem_append_right _ (hcs x hx)
  | @jump base j L ss ms t _ _ _ ih =>
    intro sp hsp
    obtain ⟨front, C, rest, cs, ms', rfl, hstart, hstop, hC, hown, hcs⟩ := ih sp hsp
    refine ⟨j :: front, C, rest, cs, ms', rfl, ?_, hstop, hC, hown, hcs⟩
    rw [hstart, List.length_cons]
    omega
  | @loop base step proceed count index body ss ms _ _ ih =>
    intro sp hsp
    obtain ⟨front, C, rest, cs, ms', heq, hstart, hstop, hC, hown, hcs⟩ := ih sp hsp
    refine ⟨step :: .jumpIf proceed (body.length + 5) false :: .beginBlock count index :: front, C,
      rest ++ [.endBlock, .increment index, .jumpBackward (body.length + 5)], cs, ms', ?_, ?_, hstop,
      hC, hown, hcs⟩
    · simp [loopCode, heq]
    · rw [hstart, List.length_cons, List.length_cons, List.length_cons]
      omega
  | @expr base A ss ms e hA he ih =>
    intro sp hsp
    rcases List.mem_cons.1 hsp with rfl | hsp
    · exact ⟨[], A, [], ss, ms, by simp, by simp, rfl, hA, he, fun x hx => List.mem_cons_of_mem _ hx⟩
    · obtain ⟨front, C, rest, cs, ms', heq, hstart, hstop, hC, hown, hcs⟩ := ih sp hsp
      exact ⟨front, C, rest, cs, ms', heq, hstart, hstop, hC, hown,
        fun x hx => List.mem_cons_of_mem _ (hcs x hx)⟩

theorem span_bounds (h : Layout own base A ss ms) {sp : Lowering.Span} (hsp : sp ∈ ss) :
    base ≤ sp.start ∧ sp.start ≤ sp.stop ∧ sp.stop ≤ base + A.length := by
  obtain ⟨front, B, rest, _, _, rfl, hstart, hstop, _⟩ := h.exists_part sp hsp
  simp only [List.length_append]
  omega

/-- A jump from outside the code of an expression does not go behind its start and in front of its end.
Neither does a mark. -/
structure Entered (base : Nat) (code : List Instruction) (ss : List Lowering.Span) (ms : List Nat) :
    Prop where
  forward : ∀ sp ∈ ss, ∀ {a t}, Forward base code a t → a < sp.start → t ≤ sp.start ∨ sp.stop ≤ t
  backward : ∀ sp ∈ ss, ∀ {a u}, Backward base code a u → sp.stop ≤ a → u ≤ sp.start ∨ sp.stop ≤ u
  marks : ∀ sp ∈ ss, ∀ m ∈ ms, m ≤ sp.start ∨ sp.stop ≤ m

section Entered

variable {B : List Instruction} {ss' : List Lowering.Span} {ms' : List Nat}

theorem Entered.append (hA : Layout own base A ss ms) (hB : Layout own (base + A.length) B ss' ms')
    (heA : Entered base A ss ms) (heB : Entered (base + A.length) B ss' ms') :
    Entered base (A ++ B) (ss' ++ ss) (ms ++ ms') := by
  refine ⟨fun sp hsp a t hf ha => ?_, fun sp hsp a u hb ha => ?_, fun sp hsp m hm => ?_⟩
  · rcases List.mem_append.1 hsp with hsp | hsp <;> rcases forward_append.1 hf with hf | hf
    · have := hB.span_bounds hsp
      have := hA.lands.forward hf
      omega
    · exact heB.forward sp hsp hf ha
    · exact heA.forward sp hsp hf ha
    · have := hA.span_bounds hsp
      have := hB.lands.forward hf
      omega
  · rcases List.mem_append.1 hsp with hsp | hsp <;> rcases backward_append.1 hb with hb | hb
    · have := hB.span_bounds hsp
      have := hA.lands.loop hb
      omega
    · exact heB.backward sp hsp hb ha
    · exact heA.backward sp hsp hb ha
    · have := hA.span_bounds hsp
      have := hB.lands.loop hb
      omega
  · rcases List.mem_append.1 hsp with hsp | hsp <;> rcases List.mem_append.1 hm with hm | hm
    · have := hB.span_bounds hsp
      have := hA.mark_bounds m hm
      omega
    · exact heB.marks sp hsp m hm
    · exact heA.marks sp hsp m hm
    · have := hA.span_bounds hsp
      have := hB.mark_bounds m hm
      omega

theorem Entered.jump (hA : Layout own (base + 1) A ss ms) (ht : t ∈ ms) (hj : j.forward? = some (t - base))
    (he : Entered (base + 1) A ss ms) : Entered base (j :: A) ss (base :: ms) := by
  refine ⟨fun sp hsp a t' hf ha => ?_, fun sp hsp a u hb ha => ?_, fun sp hsp m hm => ?_⟩
  · rcases (forward_jump hj).1 hf with ⟨rfl, rfl⟩ | hf
    · have := hA.mark_bounds t ht
      have := he.marks sp hsp t ht
      omega
    · exact he.forward sp hsp hf ha
  · exact he.backward sp hsp ((backward_jump hj).1 hb) ha
  · rcases List.mem_cons.1 hm with rfl | hm
    · have := hA.span_bounds hsp
      omega
    · exact he.marks sp hsp m hm

theorem Entered.loopCode (hstep : step.isPlain = true) (hA : Layout own (base + 3) A ss ms)
    (he : Entered (base + 3) A ss ms) :
    Entered base (loopCode step proceed count index A) ss [base, base + (A.length + 6)] := by
  refine ⟨fun sp hsp a t hf ha => ?_, fun sp hsp a u hb ha => ?_, fun sp hsp m hm => ?_⟩
  · rcases (forward_loopCode hstep).1 hf with ⟨rfl, rfl⟩ | hf
    · have := hA.span_bounds hsp
      omega
    · exact he.forward sp hsp hf ha
  · rcases (backward_loopCode hstep).1 hb with ⟨rfl, rfl⟩ | hb
    · have := hA.span_bounds hsp
      omega
    · exact he.backward sp hsp hb ha
  · have := hA.span_bounds hsp
    simp only [List.mem_cons, List.not_mem_nil, or_false] at hm
    omega

/-- Code that becomes that of an expression is entered at its start: there is no jump into it. -/
theorem Entered.expr (e : ExprId) (hA : Layout own base A ss ms) (he : Entered base A ss ms) :
    Entered base A (⟨e, base, base + A.length⟩ :: ss) [base, base + A.length] := by
  refine ⟨fun sp hsp a t hf ha => ?_, fun sp hsp a u hb ha => ?_, fun sp hsp m hm => ?_⟩
  · rcases List.mem_cons.1 hsp with rfl | hsp
    · have := hA.lands.forward hf
      dsimp only at ha
      omega
    · exact he.forward sp hsp hf ha
  · rcases List.mem_cons.1 hsp with rfl | hsp
    · have := hA.lands.loop hb
      dsimp only at ha
      omega
    · exact he.backward sp hsp hb ha
  · simp only [List.mem_cons, List.not_mem_nil, or_false] at hm
    rcases List.mem_cons.1 hsp with rfl | hsp
    · dsimp only
      omega
    · have := hA.span_bounds hsp
      omega

end Entered

theorem entered (h : Layout own base A ss ms) : Entered base A ss ms := by
  induction h with
  | nil | plain _ => exact ⟨by simp, by simp, by simp⟩
  | append hA hB ihA ihB => exact .append hA hB ihA ihB
  | jump hL ht hj ih => exact .jump hL ht hj ih
  | loop hstep hbody ih => exact .loopCode hstep hbody ih
  | expr e hA _ ih => exact .expr e hA ih

end Layout
end NodeGraph
