import Mathlib.Data.List.Forall2
import NodeGraph.Proofs.Bytecode.Machine
import NodeGraph.Proofs.Bytecode.Path

/-!
# Leaving out copies

A renaming of registers may take both ends of a copy to one place. Such a copy is idle, and `Elides` says
that a program is another one after the renaming, without its idle copies. The program without them does
what the other does as long as that one reads only registers that are current: those that hold what the
register they are renamed to holds. A register is overtaken when another one with the same new name is
written, and an idle copy makes its target as current as its source. With this, both programs make the
same calls (`performs_iff`): a step of the one is a step of the other, or an idle copy.
-/
namespace NodeGraph

/-! ## Renaming -/

/-- A place after its register was renamed. -/
def Place.rename (ρ : Cell → Cell) (p : Place) : Place := { p with cell := ρ p.cell }

/-- Instructions that do the same to operands related by `twin`. Jumps from `a` go to addresses related by
`φ`. -/
inductive Instruction.Follows (twin : Operand → Operand → Prop) (φ : Nat → Nat) (a : Nat) :
    Instruction → Instruction → Prop
  | execute {function operands operands'} : List.Forall₂ twin operands operands' →
      Follows twin φ a (.execute function operands) (.execute function operands')
  | copy {o o' q q'} : twin o o' → twin q q' → Follows twin φ a (.copy o q) (.copy o' q')
  | zero {o o'} : twin o o' → Follows twin φ a (.zero o) (.zero o')
  | increment {o o'} : twin o o' → Follows twin φ a (.increment o) (.increment o')
  | equals {l l' r r' o o'} : twin l l' → twin r r' → twin o o' →
      Follows twin φ a (.equals l r o) (.equals l' r' o')
  | jumpForward {d d'} : φ (a + d) = φ a + d' → Follows twin φ a (.jumpForward d) (.jumpForward d')
  | jumpBackward {d d'} : d ≤ a → d' ≤ φ a → φ (a - d) = φ a - d' →
      Follows twin φ a (.jumpBackward d) (.jumpBackward d')
  | jumpIf {o o' d d' expected} : twin o o' → φ (a + d) = φ a + d' →
      Follows twin φ a (.jumpIf o d expected) (.jumpIf o' d' expected)
  | beginBlock {count count' index index'} : twin count count' → twin index index' →
      Follows twin φ a (.beginBlock count index) (.beginBlock count' index')
  | endBlock : Follows twin φ a .endBlock .endBlock
  | array {op operands operands'} : List.Forall₂ twin operands operands' →
      Follows twin φ a (.array op operands) (.array op operands')
  | exit : Follows twin φ a .exit .exit

namespace Program

variable (p : Program) (ρ : Cell → Cell)

/-- A copy whose ends are one place after the renaming. -/
def isIdle : Instruction → Bool
  | .copy source target => (p.place source).rename ρ = (p.place target).rename ρ
  | _ => false

/-- The number of instructions before an address that are not idle. -/
def rank (a : Nat) : Nat := (p.bytecode.instructions.take a).countP fun i => !p.isIdle ρ i

/-- `q` is `p` with its registers renamed and without the copies that are idle then. -/
structure Elides (q : Program) : Prop where
  entries : q.bytecode.entries.toList = p.bytecode.entries.toList.map fun e => (e.1, p.rank ρ e.2)
  size : q.bytecode.size = p.rank ρ p.bytecode.size
  code : ∀ {a i}, p.bytecode.instructions[a]? = some i → p.isIdle ρ i = false →
    ∃ j, q.bytecode.instructions[p.rank ρ a]? = some j ∧
      i.Follows (fun o o' => (p.place o).rename ρ = q.place o') (p.rank ρ) a j

variable {p ρ} {a : Nat} {i : Instruction}

theorem rank_succ (h : p.bytecode.instructions[a]? = some i) :
    p.rank ρ (a + 1) = if p.isIdle ρ i then p.rank ρ a else p.rank ρ a + 1 := by
  unfold rank
  rw [List.take_add_one, h, List.countP_append]
  cases hidle : p.isIdle ρ i <;> simp [hidle]

theorem rank_of_size_le (h : p.bytecode.size ≤ a) : p.rank ρ a = p.rank ρ p.bytecode.size := by
  unfold rank
  rw [List.take_of_length_le h, Bytecode.size, List.take_length]

end Program

/-! ## Registers that are current -/

/-- The registers that are current after a place was written. -/
def overtake (ρ : Cell → Cell) (current : Cell → Bool) (written : Place) (c : Cell) : Bool :=
  if c = written.cell then written.member.isNone || current c else current c && ρ c ≠ ρ written.cell

/-- The registers that are current after an idle copy. -/
def refresh (current : Cell → Bool) (source target : Place) (c : Cell) : Bool :=
  if c = target.cell then current source.cell && (target.member.isNone || current c) else current c

namespace Host

variable {catalog : Catalog} {V S : Type} (host : Host catalog V S) (p q : Program) (ρ : Cell → Cell)

/-- The registers that are current after an instruction. -/
def currentAfter (current : Cell → Bool) (i : Instruction) : Cell → Bool :=
  match i with
  | .copy source target =>
    if p.isIdle ρ (.copy source target) then refresh current (p.place source) (p.place target)
    else overtake ρ current (p.place target)
  | i => ((host.writes i).map p.place).foldl (overtake ρ) current

/-- Control may come from an entry to an address, and these registers are current then. At first those are
current that start with the same value as their new ones. -/
inductive Arrives (first : Nat) : Nat → (Cell → Bool) → Prop
  | entry : Arrives first first fun c => p.origin c = q.origin (ρ c)
  | step {a b current i} : Arrives first a current → p.bytecode.instructions[a]? = some i →
      b ∈ i.successors a → Arrives first b (host.currentAfter p ρ current i)

/-- Whatever way control takes from an entry on, only current registers are read, idle copies apart. -/
def ReadsCurrent (entry : String) : Prop :=
  ∀ ⦃first a current i o⦄, (entry, first) ∈ p.bytecode.entries.toList →
    host.Arrives p q ρ first a current → p.bytecode.instructions[a]? = some i → p.isIdle ρ i = false →
    o ∈ host.reads i → current o.cell = true

variable {host p q ρ}

theorem currentAfter_of_not_idle {i : Instruction} (h : p.isIdle ρ i = false) (current : Cell → Bool) :
    host.currentAfter p ρ current i = ((host.writes i).map p.place).foldl (overtake ρ) current := by
  unfold currentAfter
  split
  · rw [h]
    rfl
  · rfl

section Mono

variable {known current : Cell → Bool} (h : ∀ c, known c = true → current c = true)

include h

theorem overtake_mono (w : Place) (c : Cell) (hc : overtake ρ known w c = true) :
    overtake ρ current w c = true := by
  unfold overtake at hc ⊢
  split at hc
  · next heq =>
    rw [if_pos heq]
    exact Bool.or_eq_true_iff.2 ((Bool.or_eq_true_iff.1 hc).imp_right (h c))
  · next hne =>
    rw [if_neg hne]
    exact Bool.and_eq_true_iff.2 ((Bool.and_eq_true_iff.1 hc).imp_left (h c))

theorem refresh_mono (source target : Place) (c : Cell) (hc : refresh known source target c = true) :
    refresh current source target c = true := by
  unfold refresh at hc ⊢
  split at hc
  · next heq =>
    rw [if_pos heq]
    obtain ⟨hsource, htarget⟩ := Bool.and_eq_true_iff.1 hc
    exact Bool.and_eq_true_iff.2
      ⟨h _ hsource, Bool.or_eq_true_iff.2 ((Bool.or_eq_true_iff.1 htarget).imp_right (h c))⟩
  · next hne =>
    rw [if_neg hne]
    exact h c hc

/-- The more registers are current before an instruction, the more are current after it. -/
theorem currentAfter_mono (i : Instruction) (c : Cell) (hc : host.currentAfter p ρ known i c = true) :
    host.currentAfter p ρ current i c = true := by
  cases hidle : p.isIdle ρ i with
  | false =>
    rw [currentAfter_of_not_idle hidle] at hc ⊢
    generalize (host.writes i).map p.place = places at hc ⊢
    induction places generalizing known current with
    | nil => exact h c hc
    | cons w places ih => exact ih (overtake_mono h w) hc
  | true =>
    cases i with
    | copy source target =>
      simp only [currentAfter, hidle, if_true] at hc ⊢
      exact refresh_mono h _ _ c hc
    | _ => cases hidle

end Mono

/-- Registers known to be current, for each address, show that only current ones are read. -/
theorem readsCurrent_of_known {entry : String} (known : Nat → List Cell)
    (hfirst : ∀ first, (entry, first) ∈ p.bytecode.entries.toList →
      ∀ c ∈ known first, p.origin c = q.origin (ρ c))
    (hstep : ∀ a i, p.bytecode.instructions[a]? = some i → ∀ b ∈ i.successors a, ∀ c ∈ known b,
      host.currentAfter p ρ (· ∈ known a) i c = true)
    (hreads : ∀ a i, p.bytecode.instructions[a]? = some i → p.isIdle ρ i = false →
      ∀ o ∈ host.reads i, o.cell ∈ known a) : host.ReadsCurrent p q ρ entry := by
  intro first a current i o hentry harrives hi hidle ho
  suffices h : ∀ c ∈ known a, current c = true from h _ (hreads a i hi hidle o ho)
  clear hi hidle ho
  induction harrives with
  | entry => exact fun c hc => decide_eq_true (hfirst first hentry c hc)
  | step _ hi hb ih => exact fun c hc => currentAfter_mono (by simpa using ih) _ _ (hstep _ _ hi _ hb c hc)

/-! ## The same effect -/

variable {current : Cell → Bool} {μ ν : Cell → V}

variable (ρ) in
/-- The registers that are current hold what the renamed ones hold. -/
def Mirrored (current : Cell → Bool) (μ ν : Cell → V) : Prop := ∀ c, current c = true → μ c = ν (ρ c)

theorem Mirrored.load_eq (h : Mirrored ρ current μ ν) {w : Place} (hw : current w.cell = true) :
    host.load μ w = host.load ν (w.rename ρ) := by
  unfold load Place.rename
  rw [h _ hw]

theorem Mirrored.loads_eq (h : Mirrored ρ current μ ν) {os os' : List Operand}
    (hos : List.Forall₂ (fun o o' => (p.place o).rename ρ = q.place o') os os')
    (hcurrent : ∀ o ∈ os, current o.cell = true) :
    os.map (fun o => host.load μ (p.place o)) = os'.map fun o => host.load ν (q.place o) := by
  induction hos with
  | nil => rfl
  | cons hplace _ ih =>
    rw [List.map_cons, List.map_cons, ← hplace, ih fun o ho => hcurrent o (List.mem_cons_of_mem _ ho),
      h.load_eq (hcurrent _ List.mem_cons_self)]

theorem Mirrored.store (h : Mirrored ρ current μ ν) (w : Place) (v : V) :
    Mirrored ρ (overtake ρ current w) (host.store μ w v) (host.store ν (w.rename ρ) v) := by
  intro c hc
  unfold overtake at hc
  unfold Host.store Place.rename
  split at hc
  · next heq =>
    subst heq
    rw [Function.update_self, Function.update_self]
    dsimp only
    cases hmember : w.member with
    | none => rfl
    | some name =>
      rw [hmember] at hc
      rw [h _ (by simpa using hc)]
  · next hne =>
    obtain ⟨hc, hnew⟩ := Bool.and_eq_true_iff.1 hc
    rw [Function.update_of_ne hne, Function.update_of_ne (by simpa using hnew)]
    exact h c hc

theorem Mirrored.storeAll {ws : List Place} (h : Mirrored ρ current μ ν) (vs : List V) :
    Mirrored ρ (ws.foldl (overtake ρ) current) (host.storeAll μ ws vs)
      (host.storeAll ν (ws.map (·.rename ρ)) vs) := by
  induction ws generalizing current μ ν vs with
  | nil => exact h
  | cons w ws ih => exact ih (h.store w _) vs.tail

theorem forall₂_chosen {α β : Type} {R : α → β → Prop} {l : List α} {l' : List β} (flags : List Bool)
    (h : List.Forall₂ R l l') : List.Forall₂ R (chosen flags l) (chosen flags l') := by
  unfold chosen
  induction h generalizing flags with
  | nil => simp
  | cons hab _ ih =>
    cases flags with
    | nil => simp
    | cons flag flags => cases flag <;> simp [hab, ih flags]

section Follows

variable (host) {twin : Operand → Operand → Prop} {φ : Nat → Nat} {a : Nat} {i j : Instruction}

theorem forall₂_reads (h : i.Follows twin φ a j) : List.Forall₂ twin (host.reads i) (host.reads j) := by
  cases h <;> simp only [reads, List.forall₂_nil_right_iff, List.forall₂_cons, and_true] <;> first
    | exact forall₂_chosen _ ‹_›
    | simp_all

theorem forall₂_writes (h : i.Follows twin φ a j) :
    List.Forall₂ twin (host.writes i) (host.writes j) := by
  cases h <;> simp only [writes, List.forall₂_nil_right_iff, List.forall₂_cons, and_true] <;> first
    | exact forall₂_chosen _ ‹_›
    | simp_all

theorem effect_eq (h : i.Follows twin φ a j) (state : S) (vs : List V) :
    host.effect i state vs = host.effect j state vs := by
  cases h <;> rfl

omit host in
theorem next_eq (h : i.Follows twin φ a j) (hnext : φ (a + 1) = φ a + 1) (taken : Bool) :
    j.next (φ a) taken = (i.next a taken).map φ := by
  cases h <;> simp_all [Instruction.next]
  split <;> simp_all

end Follows

/-! ## Runs in step -/

variable {m m' n n' : Machine V S} {i : Instruction} {first : Nat} {entry : String}

/-- The target of an idle copy is as current as its source. -/
theorem Mirrored.refresh (h : Mirrored ρ current μ ν) {source target : Place}
    (hsame : source.rename ρ = target.rename ρ) :
    Mirrored ρ (refresh current source target) (host.store μ target (host.load μ source)) ν := by
  obtain ⟨hcell, hmember⟩ : ρ source.cell = ρ target.cell ∧ source.member = target.member := Place.mk.inj hsame
  intro c hc
  unfold NodeGraph.refresh at hc
  unfold Host.store
  split at hc
  · next heq =>
    subst heq
    obtain ⟨hsource, htarget⟩ := Bool.and_eq_true_iff.1 hc
    rw [Function.update_self]
    unfold load
    rw [hmember]
    cases hname : target.member with
    | none => rw [h _ hsource, hcell]
    | some name =>
      rw [hname] at htarget
      have htarget := h _ htarget
      rw [h _ hsource, hcell, ← htarget]
      exact host.setMember_member _ _
  · next hne =>
    rw [Function.update_of_ne hne]
    exact h c hc

variable (p ρ) in
/-- Two machines that stand at the same instruction and see the same in the current registers. -/
structure InStep (current : Cell → Bool) (m n : Machine V S) : Prop where
  address : n.address = p.rank ρ m.address
  memory : Mirrored ρ current m.memory n.memory
  state : n.state = m.state
  calls : n.calls = m.calls

variable (host) in
/-- An idle copy changes nothing in the current registers. -/
theorem InStep.idle (hm : InStep p ρ current m n) (hi : p.bytecode.instructions[m.address]? = some i)
    (hidle : p.isIdle ρ i = true) : ∃ m', host.step p m = some m' ∧ m'.address = m.address + 1 ∧
      InStep p ρ (host.currentAfter p ρ current i) m' n := by
  cases i with
  | copy source target =>
    refine ⟨_, host.step_eq hi, rfl, ?_, ?_, hm.state, ?_⟩
    · show n.address = p.rank ρ (m.address + 1)
      rw [Program.rank_succ hi, if_pos hidle]
      exact hm.address
    · simp only [currentAfter, hidle, if_true]
      exact hm.memory.refresh (of_decide_eq_true hidle)
    · simpa [after, effectAt, effect] using hm.calls
  | _ => cases hidle

theorem mem_successors_of_next {a b : Nat} {taken : Bool} (h : i.next a taken = some b) :
    b ∈ i.successors a := by
  cases i <;> simp_all [Instruction.next, Instruction.successors]
  split at h <;> simp [h]

/-- Any other instruction is one of the program without idle copies, and sees the same. -/
theorem InStep.step (h : p.Elides ρ q) (hm : InStep p ρ current m n)
    (hi : p.bytecode.instructions[m.address]? = some i) (hidle : p.isIdle ρ i = false)
    (hreads : ∀ o ∈ host.reads i, current o.cell = true) :
    Option.Rel (fun m' n' => m'.address ∈ i.successors m.address ∧
      InStep p ρ (host.currentAfter p ρ current i) m' n') (host.step p m) (host.step q n) := by
  obtain ⟨j, hj, hfollows⟩ := h.code hi hidle
  rw [← hm.address] at hj
  have heffect : host.effectAt q n j = host.effectAt p m i := by
    unfold effectAt
    rw [← host.effect_eq hfollows, hm.state]
    exact congrArg _ (hm.memory.loads_eq (host.forall₂_reads hfollows) hreads).symm
  have hwrite : (host.writes j).map q.place = ((host.writes i).map p.place).map (·.rename ρ) := by
    have hsame := List.forall₂_map_left_iff.2 (List.forall₂_map_right_iff.2 (host.forall₂_writes hfollows))
    rw [List.map_map]
    rw [List.forall₂_eq_eq_eq] at hsame
    exact hsame.symm
  have hnext := next_eq hfollows (by rw [Program.rank_succ hi, hidle]; rfl) (host.effectAt p m i).taken
  rw [host.step_eq hi, host.step_eq hj, heffect, hm.address, hnext]
  cases hb : i.next m.address (host.effectAt p m i).taken with
  | none => exact .none
  | some b =>
    refine .some ⟨mem_successors_of_next hb, rfl, ?_, ?_, ?_⟩
    · rw [currentAfter_of_not_idle hidle]
      unfold after
      rw [heffect, hwrite]
      exact hm.memory.storeAll _
    · unfold after
      rw [heffect]
    · unfold after
      rw [heffect, hm.calls]

variable (host p q ρ) in
/-- Two machines in step, of which the one has come from an entry. -/
def Tracks (first : Nat) (m n : Machine V S) : Prop :=
  ∃ current, host.Arrives p q ρ first m.address current ∧ InStep p ρ current m n

theorem tracks_start (state : S) :
    host.Tracks p q ρ first (host.start p state first) (host.start q state (p.rank ρ first)) := by
  refine ⟨_, .entry, rfl, fun c hc => ?_, rfl, rfl⟩
  show (p.origin c).elim host.zero host.initial = (q.origin (ρ c)).elim host.zero host.initial
  rw [of_decide_eq_true hc]

/-- During an idle copy the other machine waits. -/
theorem Tracks.idle (hm : host.Tracks p q ρ first m n) (hi : p.bytecode.instructions[m.address]? = some i)
    (hidle : p.isIdle ρ i = true) :
    ∃ m', host.step p m = some m' ∧ m'.address = m.address + 1 ∧ host.Tracks p q ρ first m' n := by
  obtain ⟨current, harrives, hm⟩ := hm
  obtain ⟨m', hstep, haddress, hm⟩ := hm.idle host hi hidle
  have hnext : m'.address ∈ i.successors m.address := by
    cases i <;> first | cases hidle | simp [Instruction.successors, haddress]
  exact ⟨m', hstep, haddress, _, harrives.step hi hnext, hm⟩

/-- After some idle copies comes another instruction or the end. -/
theorem Tracks.skip (hm : host.Tracks p q ρ first m n) : ∃ m', host.Runs p m m' ∧
    host.Tracks p q ρ first m' n ∧ ∀ i, p.bytecode.instructions[m'.address]? = some i → p.isIdle ρ i = false := by
  -- Control runs towards the end of the code as long as copies are idle.
  induction hd : p.bytecode.size - m.address generalizing m with
  | zero =>
    have hend : p.bytecode.instructions[m.address]? = none := List.getElem?_eq_none (Nat.le_of_sub_eq_zero hd)
    exact ⟨m, .refl, hm, fun i hi => nomatch hend.symm.trans hi⟩
  | succ d ih =>
    cases hi : p.bytecode.instructions[m.address]? with
    | none => exact ⟨m, .refl, hm, fun i hi' => nomatch hi.symm.trans hi'⟩
    | some i =>
      cases hidle : p.isIdle ρ i with
      | false =>
        refine ⟨m, .refl, hm, fun i' hi' => ?_⟩
        cases hi.symm.trans hi'
        exact hidle
      | true =>
        obtain ⟨m', hstep, haddress, hm'⟩ := hm.idle hi hidle
        obtain ⟨m'', hruns, hdone⟩ := ih hm' (by omega)
        exact ⟨m'', hruns.head hstep, hdone⟩

section Runs

variable (h : p.Elides ρ q) (hreads : host.ReadsCurrent p q ρ entry)
  (hfirst : (entry, first) ∈ p.bytecode.entries.toList)

include h hreads hfirst

/-- The program without idle copies follows. -/
theorem Tracks.forth (hm : host.Tracks p q ρ first m n) (hstep : host.step p m = some m') :
    ∃ n', host.Runs q n n' ∧ host.Tracks p q ρ first m' n' := by
  cases hi : p.bytecode.instructions[m.address]? with
  | none => simp [step, hi] at hstep
  | some i =>
    cases hidle : p.isIdle ρ i with
    | true =>
      obtain ⟨m'', hm'', -, htracks⟩ := hm.idle hi hidle
      cases hstep.symm.trans hm''
      exact ⟨n, .refl, htracks⟩
    | false =>
      obtain ⟨current, harrives, hm⟩ := hm
      have hrel := hm.step h hi hidle fun o ho => hreads hfirst harrives hi hidle ho
      rw [hstep] at hrel
      generalize hn : host.step q n = r at hrel
      cases hrel with
      | some hrel => exact ⟨_, .single hn, _, harrives.step hi hrel.1, hrel.2⟩

/-- The program with idle copies does what the other does. -/
theorem Tracks.back (hm : host.Tracks p q ρ first m n) (hstep : host.step q n = some n') :
    ∃ m', host.Runs p m m' ∧ host.Tracks p q ρ first m' n' := by
  obtain ⟨m1, hruns, ⟨current, harrives, hm1⟩, hkept⟩ := hm.skip
  cases hi : p.bytecode.instructions[m1.address]? with
  | none =>
    have hend : q.bytecode.instructions[n.address]? = none := by
      rw [hm1.address, Program.rank_of_size_le (List.getElem?_eq_none_iff.1 hi), ← h.size]
      exact List.getElem?_eq_none (Nat.le_refl _)
    simp [step, hend] at hstep
  | some i =>
    have hidle := hkept i hi
    have hrel := hm1.step h hi hidle fun o ho => hreads hfirst harrives hi hidle ho
    rw [hstep] at hrel
    generalize hn : host.step p m1 = r at hrel
    cases hrel with
    | some hrel => exact ⟨_, hruns.tail hn, _, harrives.step hi hrel.1, hrel.2⟩

end Runs

/-- Both programs perform the same calls. -/
theorem performs_iff (h : p.Elides ρ q) (hreads : host.ReadsCurrent p q ρ entry) (state : S)
    (calls : List (Nat × List V)) :
    host.Performs p state entry calls ↔ host.Performs q state entry calls := by
  constructor
  · rintro ⟨first, m, hfirst, hruns, rfl⟩
    have hreach : ∃ n, host.Runs q (host.start q state (p.rank ρ first)) n ∧ host.Tracks p q ρ first m n := by
      induction hruns with
      | refl => exact ⟨_, .refl, tracks_start state⟩
      | tail _ hstep ih =>
        obtain ⟨n, hruns, htracks⟩ := ih
        obtain ⟨n', hruns', htracks'⟩ := htracks.forth h hreads hfirst hstep
        exact ⟨n', hruns.trans hruns', htracks'⟩
    obtain ⟨n, hruns, _, _, hn⟩ := hreach
    refine ⟨_, n, ?_, hruns, hn.calls⟩
    rw [h.entries]
    exact List.mem_map_of_mem hfirst
  · rintro ⟨first', n, hfirst', hruns, rfl⟩
    rw [h.entries] at hfirst'
    obtain ⟨⟨_, first⟩, hfirst, heq⟩ := List.mem_map.1 hfirst'
    cases heq
    have hreach : ∃ m, host.Runs p (host.start p state first) m ∧ host.Tracks p q ρ first m n := by
      induction hruns with
      | refl => exact ⟨_, .refl, tracks_start state⟩
      | tail _ hstep ih =>
        obtain ⟨m, hruns, htracks⟩ := ih
        obtain ⟨m', hruns', htracks'⟩ := htracks.back h hreads hfirst hstep
        exact ⟨m', hruns.trans hruns', htracks'⟩
    obtain ⟨m, hruns, _, _, hm⟩ := hreach
    exact ⟨first, m, hfirst, hruns, hm.calls.symm⟩

end Host
end NodeGraph
