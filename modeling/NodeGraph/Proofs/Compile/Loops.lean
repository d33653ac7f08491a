import Mathlib
import NodeGraph.Proofs.Bytecode.Execution
import NodeGraph.Proofs.Compile.Sound
import NodeGraph.Proofs.Lowering.Keys

/-!
# Loops

A loop relies on two things: its step says whether the index is less than some number, and neither the step
nor the body changes the index. Then one round of the loop leads from an index to the next one
(`Loop.In.round`), and the whole loop runs its body once for every index below the number
(`Tree.loop_runs`).
-/
namespace NodeGraph

open Lowering

namespace Host

variable {catalog : Catalog} {V S : Type} (host : Host catalog V S) (p : Program) (l : Loop)

/-! ## Rounds -/

/-- The index of a loop after `k` rounds. -/
def nth (k : Nat) : V := host.increment^[k] host.zero

theorem nth_succ (k : Nat) : host.nth (k + 1) = host.increment (host.nth k) :=
  Function.iterate_succ_apply' ..

/-- What a loop relies on in the runs from `m`. The step says whether the index is less than `n`, the body
runs to its end, and both keep the index. -/
structure Iterates (n : Nat) (m : Machine V S) : Prop where
  step : ∀ {k m' m''}, k ≤ n → host.Runs p m m' → m'.address = l.zero + 1 →
    host.load m'.memory (p.place l.index) = host.nth k → host.step p m' = some m'' →
    host.truth (host.load m''.memory (p.place l.proceed)) = decide (k < n) ∧
      host.load m''.memory (p.place l.index) = host.nth k
  body : ∀ {k m'}, k < n → host.Runs p m m' → m'.address = l.zero + 4 →
    host.load m'.memory (p.place l.index) = host.nth k →
    ∃ m'', host.RunsThrough p (l.zero + 4) l.last m' m'' ∧
      host.load m''.memory (p.place l.index) = host.nth k

/-- Control goes round a loop, from its step to the address behind it. The body is run once for each of
the values, which are those of the index at its beginning. -/
inductive Rounds : List V → List Nat → Machine V S → Machine V S → Prop
  | done {m m' : Machine V S} (h : host.Executes p m [l.zero + 1, l.zero + 2] m')
    (hout : m'.address = l.last + 3) : Rounds [] [l.zero + 1, l.zero + 2] m m'
  | round {v : V} {vs : List V} {body as : List Nat} {m m₁ m₂ m₃ m' : Machine V S}
    (henter : host.Executes p m [l.zero + 1, l.zero + 2, l.zero + 3] m₁)
    (hindex : host.load m₁.memory (p.place l.index) = v) (hbody : host.Executes p m₁ body m₂)
    (hinside : ∀ a ∈ body, l.zero + 4 ≤ a ∧ a < l.last)
    (hleave : host.Executes p m₂ [l.last, l.last + 1, l.last + 2] m₃) (h : Rounds vs as m₃ m') :
    Rounds (v :: vs)
      ([l.zero + 1, l.zero + 2, l.zero + 3] ++ (body ++ ([l.last, l.last + 1, l.last + 2] ++ as))) m m'

variable {host p l} {m m' : Machine V S} {vs : List V} {as : List Nat} {n k : Nat}

theorem Rounds.executes (h : host.Rounds p l vs as m m') : host.Executes p m as m' := by
  induction h with
  | done h _ => exact h
  | round henter _ hbody _ hleave _ ih => exact henter.trans (hbody.trans (hleave.trans ih))

theorem Rounds.address_eq (h : host.Rounds p l vs as m m') : m'.address = l.last + 3 := by
  induction h with
  | done _ hout => exact hout
  | round _ _ _ _ _ _ ih => exact ih

/-- Every round begins and ends the block of the loop once. -/
theorem Rounds.count_eq (hlt : l.zero + 3 < l.last) (h : host.Rounds p l vs as m m') :
    as.count (l.zero + 3) = vs.length ∧ as.count l.last = vs.length := by
  induction h with
  | done _ _ => simp [List.count_cons]; omega
  | @round v vs body as m m₁ m₂ m₃ m' _ _ _ hinside _ _ ih =>
    have henter : body.count (l.zero + 3) = 0 := List.count_eq_zero.2 fun hmem => by
      have := hinside _ hmem
      omega
    have hleave : body.count l.last = 0 := List.count_eq_zero.2 fun hmem => by
      have := hinside _ hmem
      omega
    have hfront : [l.zero + 1, l.zero + 2, l.zero + 3].count (l.zero + 3) = 1 ∧
        [l.zero + 1, l.zero + 2, l.zero + 3].count l.last = 0 :=
      ⟨by simp, List.count_eq_zero.2 (by simp; omega)⟩
    have hback : [l.last, l.last + 1, l.last + 2].count (l.zero + 3) = 0 ∧
        [l.last, l.last + 1, l.last + 2].count l.last = 1 :=
      ⟨List.count_eq_zero.2 (by simp; omega), by simp⟩
    simp only [List.count_append, henter, hleave, hfront, hback, ih, List.length_cons]
    omega

end Host

/-! ## One round -/

namespace Lowering.Loop.In

variable {catalog : Catalog} {V S : Type} {host : Host catalog V S} {externals : List ExternalVariable}
  {l : Loop} {s : State} {body : Option ExprId} {m m' : Machine V S} {n k : Nat}

variable (hl : l.In s body) (hplain : ∀ a taken, l.step.next a taken = some (a + 1))
  (hwhole : l.index.propertyPath = none)

include hl

section Entering

variable (hm : host.Iterates (s.program externals) l n m) (hrun : host.Runs (s.program externals) m m')
  (haddress : m'.address = l.zero + 1)
  (hindex : host.load m'.memory ((s.program externals).place l.index) = host.nth k)

include hplain hm hrun haddress hindex

/-- The step and the conditional jump behind it. -/
theorem tests (hk : k ≤ n) : ∃ m'', host.Executes (s.program externals) m' [l.zero + 1, l.zero + 2] m'' ∧
    m''.address = (if k < n then l.zero + 3 else l.last + 3) ∧
    host.load m''.memory ((s.program externals).place l.index) = host.nth k := by
  have hlt := hl.lt_last
  obtain ⟨m₁, hstep, haddress₁⟩ : ∃ m₁, host.step (s.program externals) m' = some m₁ ∧
      m₁.address = l.zero + 2 := by
    rw [host.step_eq (haddress ▸ at_zero.1 hl.step), hplain, haddress]
    exact ⟨_, rfl, rfl⟩
  obtain ⟨htruth, hindex₁⟩ := hm.step hk hrun haddress hindex hstep
  have hjump := host.step_jumpIf (p := s.program externals) (haddress₁ ▸ at_zero.1 hl.jump)
  refine ⟨_, (Host.Executes.at haddress hstep).trans (.at haddress₁ hjump), ?_, hindex₁⟩
  dsimp only
  rw [htruth, haddress₁]
  by_cases hkn : k < n
  · simp [hkn]
  · simp only [hkn, decide_false, if_true, if_false]
    omega

/-- The index is less than the number, and the body is entered. -/
theorem enters (hk : k < n) : ∃ m'',
    host.Executes (s.program externals) m' [l.zero + 1, l.zero + 2, l.zero + 3] m'' ∧
      m''.address = l.zero + 4 ∧ host.load m''.memory ((s.program externals).place l.index) = host.nth k := by
  obtain ⟨m₁, htest, haddress₁, hindex₁⟩ := hl.tests hplain hm hrun haddress hindex (Nat.le_of_lt hk)
  rw [if_pos hk] at haddress₁
  have hbegin := host.step_beginBlock (p := s.program externals) (haddress₁ ▸ at_zero.1 hl.enter)
  refine ⟨_, htest.trans (.at haddress₁ hbegin), ?_, hindex₁⟩
  dsimp only
  rw [haddress₁]

end Entering

include hwhole in
/-- The end of the body leads to the step, with the next index. -/
theorem leaves (haddress : m.address = l.last)
    (hindex : host.load m.memory ((s.program externals).place l.index) = host.nth k) : ∃ m',
    host.Executes (s.program externals) m [l.last, l.last + 1, l.last + 2] m' ∧
      m'.address = l.zero + 1 ∧
      host.load m'.memory ((s.program externals).place l.index) = host.nth (k + 1) := by
  have hlt := hl.lt_last
  have hend := host.step_endBlock (p := s.program externals) (haddress ▸ at_zero.1 hl.leave)
  rw [haddress] at hend
  have hincrement := host.step_increment (p := s.program externals)
    (m := { m with address := l.last + 1, state := host.leaveBlock m.state }) (at_zero.1 hl.increment)
  dsimp only at hincrement
  rw [hindex, ← host.nth_succ] at hincrement
  have hback := host.step_jumpBackward (p := s.program externals)
    (m := { m with
      address := l.last + 2
      state := host.leaveBlock m.state
      memory := host.store m.memory ((s.program externals).place l.index) (host.nth (k + 1)) })
    (at_zero.1 hl.back) (by dsimp only; omega)
  refine ⟨_, (Host.Executes.at haddress hend).trans (.step hincrement (.single hback)), ?_, ?_⟩
  · dsimp only
    omega
  · exact host.load_store_whole hwhole _ _

/-! ## The whole loop -/

include hplain hwhole in
/-- From its step on, a loop runs its body for every index from the present one on that is below the
number. -/
theorem rounds (hm : host.Iterates (s.program externals) l n m) {j : Nat} (hj : k + j = n)
    (hrun : host.Runs (s.program externals) m m') (haddress : m'.address = l.zero + 1)
    (hindex : host.load m'.memory ((s.program externals).place l.index) = host.nth k) :
    ∃ as m'', host.Rounds (s.program externals) l ((List.range' k j).map host.nth) as m' m'' ∧
      host.load m''.memory ((s.program externals).place l.index) = host.nth n := by
  induction j generalizing k m' with
  | zero =>
    obtain ⟨m'', htest, haddress'', hindex''⟩ := hl.tests hplain hm hrun haddress hindex (by omega)
    rw [if_neg (by omega)] at haddress''
    obtain rfl : k = n := by omega
    exact ⟨_, m'', .done htest haddress'', hindex''⟩
  | succ j ih =>
    obtain ⟨m₁, henter, haddress₁, hindex₁⟩ := hl.enters hplain hm hrun haddress hindex (by omega)
    have hrun₁ := hrun.trans henter.runs
    obtain ⟨m₂, ⟨-, haddress₂, body, hbody, hinside⟩, hindex₂⟩ := hm.body (by omega) hrun₁ haddress₁ hindex₁
    obtain ⟨m₃, hleave, haddress₃, hindex₃⟩ := hl.leaves hwhole haddress₂ hindex₂
    obtain ⟨as, m'', hrounds, hindex''⟩ :=
      ih (by omega) ((hrun₁.trans hbody.runs).trans hleave.runs) haddress₃ hindex₃
    rw [List.range'_succ, List.map_cons]
    exact ⟨_, m'', .round henter hindex₁ hbody hinside hleave hrounds, hindex''⟩

end Lowering.Loop.In

section

variable {catalog : Catalog} {V S : Type} (host : Host catalog V S)

/-- Control comes from the instruction that sets the index of a loop to zero to the address behind the
loop. The body is run for the first `n` indices, one after the other, and the block of the loop is begun
and ended as often. -/
def Host.RunsLoop (p : Program) (l : Loop) (n : Nat) (m : Machine V S) : Prop :=
  ∃ m₁ as m', host.Executes p m [l.zero] m₁ ∧
    host.Rounds p l ((List.range n).map host.nth) as m₁ m' ∧ host.Executes p m (l.zero :: as) m' ∧
    (l.zero :: as).count (l.zero + 3) = n ∧ (l.zero :: as).count l.last = n ∧
    m'.address = l.last + 3 ∧ host.load m'.memory (p.place l.index) = host.nth n

end

namespace Tree

variable {t : Tree} {env : Environment} {options : CompileOptions} {sharing : Sharing} {s : State} {e : ExprId}
  {l : Loop} {start stop n : Nat}

theorem LoopCode.runs (hl : t.LoopCode s e l start stop) (hs : t.loweredWith env options sharing = .ok s)
    (hsharing : sharing.ExistsIn t.graph) (hplain : ∀ a taken, l.step.next a taken = some (a + 1))
    {catalog : Catalog} {V S : Type} {host : Host catalog V S} {m : Machine V S} (haddress : m.address = l.zero)
    (hm : host.Iterates (s.program env.externals) l n m) :
    host.RunsLoop (s.program env.externals) l n m := by
  obtain ⟨body, -, hloop⟩ := hl.loop
  have hwhole := (hl.index.whole hs hsharing).1
  have hzero := host.step_zero (p := s.program env.externals) (haddress ▸ at_zero.1 hl.zero)
  have hfirst := Host.Executes.at haddress hzero
  have hindex := host.load_store_whole (p := s.program env.externals) hwhole m.memory host.zero
  obtain ⟨as, m', hrounds, hindex'⟩ := hloop.rounds hplain hwhole hm (k := 0) (Nat.zero_add n) hfirst.runs
    (by dsimp only; rw [haddress]) hindex
  have hlt := hloop.lt_last
  have hcount := hrounds.count_eq hlt
  rw [List.length_map, List.length_range'] at hcount
  rw [← List.range_eq_range'] at hrounds
  have hne : l.zero ≠ l.last := by omega
  refine ⟨_, as, m', hfirst, hrounds, hfirst.trans hrounds.executes, ?_, ?_, hrounds.address_eq, hindex'⟩
  · simp [hcount.1]
  · simp [hcount.2, hne]

/-- A loop over indices or over an array runs its body for the first `n` indices, if its step says whether
the index is less than `n` and nothing else changes the index. Then control goes on with what is to be done
when the loop is completed. -/
theorem loop_runs (hissues : t.issues env = .ok []) (hs : t.lowered env options = .ok s)
    (hsp : ⟨e, start, stop⟩ ∈ s.spans) (hok : e ∉ s.failed) :
    (t.kind e = .ok .call → ∀ function, t.nodeKindOf e = .ok (some (.forLoop function)) →
      ∃ l number operands, t.LoopCode s e l start stop ∧ env.catalog.index? function = some number ∧
        l.step = .execute number operands ∧
        ∀ {V S : Type} (host : Host env.catalog V S) (n : Nat) (m : Machine V S), m.address = l.zero →
          host.Iterates (s.program env.externals) l n m → host.RunsLoop (s.program env.externals) l n m) ∧
    (t.kind e = .ok .array → t.nodeKindOf e = .ok (some (.array .iterate)) →
      ∃ l operands, t.LoopCode s e l start stop ∧ l.step = .array .iterate operands ∧
        ∀ {V S : Type} (host : Host env.catalog V S) (n : Nat) (m : Machine V S), m.address = l.zero →
          host.Iterates (s.program env.externals) l n m →
            host.RunsLoop (s.program env.externals) l n m) := by
  obtain ⟨sharing, -, hexists, hwith, hlowered⟩ := lowered_of_issues hissues hs
  have hshaped := hlowered.shaped hsp hok
  constructor
  · intro hkind function hfunction
    obtain ⟨l, number, operands, hl, hstep, hnumber⟩ := hshaped _ hkind function hfunction
    refine ⟨l, number, operands, hl, hnumber, hstep, ?_⟩
    intro V S host n m hm hiterates
    exact hl.runs hwith hexists (by simp [hstep, Instruction.next]) hm hiterates
  · intro hkind hop
    obtain ⟨l, operands, hl, hstep⟩ := hshaped _ hkind hop
    refine ⟨l, operands, hl, hstep, ?_⟩
    intro V S host n m hm hiterates
    exact hl.runs hwith hexists (by simp [hstep, Instruction.next]) hm hiterates

end Tree

/-! ## A loop over indices and a loop over an array -/

def countGraph : Graph where
  nodes := [⟨"Go", .event "Go", [], none⟩, ⟨"Count", .forLoop "below", [0, 1, 2, 3], none⟩,
    ⟨"Use", .unit "use", [4], none⟩, ⟨"Each", .array .iterate, [5, 6, 7, 8, 9, 10], none⟩]
  pins := [
    { node := 1, name := "ExecuteContext", direction := .inOut, typeName := executeType },
    { node := 1, name := "Count", direction := .input, typeName := "int32", defaultValue := "3" },
    { node := 1, name := "Index", direction := .output, typeName := "int32" },
    { node := 1, name := "Continue", direction := .hidden, typeName := "bool" },
    { node := 2, name := "Value", direction := .input, typeName := "int32" },
    { node := 3, name := "Array", direction := .input, typeName := "int32", isArray := true },
    { node := 3, name := "Element", direction := .output, typeName := "int32" },
    { node := 3, name := "Index", direction := .output, typeName := "int32" },
    { node := 3, name := "Count", direction := .output, typeName := "int32" },
    { node := 3, name := "Ratio", direction := .output, typeName := "float" },
    { node := 3, name := "Continue", direction := .hidden, typeName := "bool" }]

/-- A loop that calls a function with its index, and a loop without a body. -/
def countTree : Tree where
  graph := countGraph
  exprs := [
    { kind := .entry, name := "Go", children := [1, 9], proxy := some ⟨[], .node 0⟩ },
    { kind := .call, name := "Count", children := [2, 3, 4, 5], proxy := some ⟨[], .node 1⟩ },
    { kind := .var, name := "ExecuteContext", children := [6], proxy := some ⟨[], .pin 0⟩ },
    { kind := .literal, name := "Count", proxy := some ⟨[], .pin 1⟩ },
    { kind := .var, name := "Index", proxy := some ⟨[], .pin 2⟩ },
    { kind := .var, name := "Continue", proxy := some ⟨[], .pin 3⟩ },
    { kind := .block, name := "ExecuteContext", children := [7] },
    { kind := .call, name := "Use", children := [8], proxy := some ⟨[], .node 2⟩ },
    { kind := .var, name := "Value", proxy := some ⟨[], .pin 4⟩ },
    { kind := .array, name := "Each", children := [10, 11, 12, 13, 14, 15], proxy := some ⟨[], .node 3⟩ },
    { kind := .var, name := "Array", proxy := some ⟨[], .pin 5⟩ },
    { kind := .var, name := "Element", proxy := some ⟨[], .pin 6⟩ },
    { kind := .var, name := "Index", proxy := some ⟨[], .pin 7⟩ },
    { kind := .var, name := "Count", proxy := some ⟨[], .pin 8⟩ },
    { kind := .var, name := "Ratio", proxy := some ⟨[], .pin 9⟩ },
    { kind := .var, name := "Continue", proxy := some ⟨[], .pin 10⟩ }]
  roots := [0]
  links := [⟨⟨[], .pin 2⟩, ⟨[], .pin 4⟩⟩]

def countEnv : Environment where
  catalog := ⟨[⟨"below", [⟨"Count", .input⟩, ⟨"Index", .input⟩, ⟨"Continue", .output⟩]⟩,
    ⟨"use", [⟨"Value", .input⟩]⟩]⟩

theorem issues_countTree : countTree.issues countEnv = .ok [] := rfl

def countLoop : Loop where
  step := .execute 0 [⟨.literal, 0, none⟩, ⟨.work, 0, none⟩, ⟨.work, 1, none⟩]
  count := ⟨.literal, 0, none⟩
  index := ⟨.work, 0, none⟩
  proceed := ⟨.work, 1, none⟩
  zero := 0
  last := 5

def eachLoop : Loop where
  step := .array .iterate [⟨.work, 2, none⟩, ⟨.work, 3, none⟩, ⟨.work, 4, none⟩, ⟨.work, 5, none⟩,
    ⟨.work, 6, none⟩, ⟨.work, 7, none⟩]
  count := ⟨.work, 5, none⟩
  index := ⟨.work, 4, none⟩
  proceed := ⟨.work, 7, none⟩
  zero := 8
  last := 12

def countCode : List Instruction :=
  .zero countLoop.index :: loopCode countLoop.step countLoop.proceed countLoop.count countLoop.index
    [.execute 1 [⟨.work, 0, none⟩]] ++
  .zero eachLoop.index :: loopCode eachLoop.step eachLoop.proceed eachLoop.count eachLoop.index [] ++ [.exit]

theorem ofTree_countTree : Sharing.ofTree countTree = .ok ⟨[[⟨[], .pin 2⟩, ⟨[], .pin 4⟩]]⟩ := by cbv

theorem lowered_countTree : ∃ s, countTree.lowered countEnv {} = .ok s ∧ s.code.instructions = countCode ∧
    ⟨1, 0, 8⟩ ∈ s.spans ∧ ⟨9, 8, 15⟩ ∈ s.spans ∧ s.failed = [] := by
  rw [Tree.lowered_eq ofTree_countTree]
  exact Checked.exists_ok_of_any (by decide +kernel)

/-- The code has two loops. -/
theorem eq_of_loopCode {s : State} (hcode : s.code.instructions = countCode) {e : ExprId} {l : Loop}
    {start stop : Nat} (hl : countTree.LoopCode s e l start stop) : l = countLoop ∨ l = eachLoop := by
  obtain ⟨step, count, index, proceed, first, last⟩ := l
  obtain ⟨body, -, hloop⟩ := hl.loop
  have hzero := at_zero.1 hl.zero
  have hstep := at_zero.1 hloop.step
  have hjump := at_zero.1 hloop.jump
  have henter := at_zero.1 hloop.enter
  have hlt := hloop.lt_last
  rw [hcode] at hzero hstep hjump henter
  dsimp only at hzero hstep hjump henter hlt
  have hbound := (List.getElem?_eq_some_iff.1 hzero).1
  rw [show countCode.length = 16 from rfl] at hbound
  interval_cases first <;> simp [countCode, countLoop, eachLoop, loopCode] at hzero hstep hjump henter ⊢
  · exact ⟨hstep.symm, henter.1.symm, hzero.symm, hjump.1.symm, by omega⟩
  · exact ⟨hstep.symm, henter.1.symm, hzero.symm, hjump.1.symm, by omega⟩

/-- A host that counts to three. -/
def countHost : Host countEnv.catalog Nat Unit where
  initial _ := 0
  zero := 0
  increment v := v + 1
  equals v w := if v = w then 1 else 0
  truth v := v ≠ 0
  member v _ := v
  setMember _ _ v := v
  setMember_member _ _ := rfl
  observes direction := direction = .input
  call _ _ read := ((), [if read.getD 1 0 < 3 then 1 else 0])
  arrayReads _ := [true, false, true, false, false, false]
  arrayWrites _ := [false, true, false, true, true, true]
  array _ read := [0, 3, 0, if read.getD 1 0 < 3 then 1 else 0]
  enterBlock _ _ _ := ()
  leaveBlock _ := ()

theorem nth_countHost (k : Nat) : countHost.nth k = k := by
  induction k with
  | zero => rfl
  | succ k ih =>
    rw [Host.nth_succ, ih]
    rfl

section

variable {s : State} (hcode : s.code.instructions = countCode)

include hcode

theorem iterates_countLoop (m : Machine Nat Unit) : countHost.Iterates (s.program []) countLoop 3 m where
  step {k m' m''} hk _ haddress hindex hstep := by
    have hat : (s.program []).bytecode.instructions[m'.address]? = some countLoop.step := by
      rw [haddress]
      show s.code.instructions[1]? = _
      rw [hcode]
      rfl
    rw [countHost.step_eq hat] at hstep
    obtain rfl := Option.some.inj hstep
    rw [nth_countHost] at hindex ⊢
    have hmemory : (countHost.after (s.program []) m' countLoop.step (m'.address + 1)).memory =
        countHost.store m'.memory ((s.program []).place countLoop.proceed) (if k < 3 then 1 else 0) := by
      rw [← hindex]
      rfl
    rw [hmemory, countHost.load_store_whole rfl, countHost.load_store_of_ne (by decide), hindex]
    exact ⟨by by_cases hlt : k < 3 <;> simp [countHost, hlt], rfl⟩
  body {k m'} hk _ haddress hindex := by
    have hat : (s.program []).bytecode.instructions[m'.address]? = some (.execute 1 [⟨.work, 0, none⟩]) := by
      rw [haddress]
      show s.code.instructions[4]? = _
      rw [hcode]
      rfl
    have hstep := countHost.step_eq hat
    refine ⟨_, ⟨haddress, ?_, _, .single hstep, ?_⟩, hindex⟩
    · rw [haddress]
      rfl
    · rw [haddress]
      decide

theorem iterates_eachLoop (m : Machine Nat Unit) : countHost.Iterates (s.program []) eachLoop 3 m where
  step {k m' m''} hk _ haddress hindex hstep := by
    have hat : (s.program []).bytecode.instructions[m'.address]? = some eachLoop.step := by
      rw [haddress]
      show s.code.instructions[9]? = _
      rw [hcode]
      rfl
    rw [countHost.step_eq hat] at hstep
    obtain rfl := Option.some.inj hstep
    rw [nth_countHost] at hindex ⊢
    have hmemory : ∃ memory, (countHost.after (s.program []) m' eachLoop.step (m'.address + 1)).memory =
        countHost.store memory ((s.program []).place eachLoop.proceed) (if k < 3 then 1 else 0) ∧
        countHost.load memory ((s.program []).place eachLoop.index) = k := by
      rw [← hindex]
      refine ⟨_, rfl, ?_⟩
      iterate 3 rw [countHost.load_store_of_ne (by decide)]
    obtain ⟨memory, hmemory, hkept⟩ := hmemory
    rw [hmemory, countHost.load_store_whole rfl, countHost.load_store_of_ne (by decide), hkept]
    exact ⟨by by_cases hlt : k < 3 <;> simp [countHost, hlt], rfl⟩
  body {k m'} hk _ haddress hindex := ⟨m', ⟨haddress, haddress, [], .refl m', by simp⟩, hindex⟩

end

/-- The first loop calls its function three times, the second one runs an empty body as often. -/
theorem Tree.loop_runs_countTree : ∃ s l l', countTree.issues countEnv = .ok [] ∧
    countTree.lowered countEnv {} = .ok s ∧ ⟨1, 0, 8⟩ ∈ s.spans ∧ 1 ∉ s.failed ∧ ⟨9, 8, 15⟩ ∈ s.spans ∧
    9 ∉ s.failed ∧ countTree.LoopCode s 1 l 0 8 ∧ countTree.LoopCode s 9 l' 8 15 ∧
    ∀ m : Machine Nat Unit,
      (m.address = l.zero → countHost.Iterates (s.program []) l 3 m ∧ countHost.RunsLoop (s.program []) l 3 m) ∧
      (m.address = l'.zero →
        countHost.Iterates (s.program []) l' 3 m ∧ countHost.RunsLoop (s.program []) l' 3 m) := by
  obtain ⟨s, hs, hcode, hsp, hsp', hnone⟩ := lowered_countTree
  have hok : 1 ∉ s.failed := by simp [hnone]
  have hok' : 9 ∉ s.failed := by simp [hnone]
  obtain ⟨l, number, operands, hl, -, hstep, hruns⟩ := (loop_runs issues_countTree hs hsp hok).1 rfl "below" rfl
  obtain ⟨l', operands', hl', hstep', hruns'⟩ := (loop_runs issues_countTree hs hsp' hok').2 rfl rfl
  obtain rfl := (eq_of_loopCode hcode hl).resolve_right fun h => by
    rw [h] at hstep
    cases hstep
  obtain rfl := (eq_of_loopCode hcode hl').resolve_left fun h => by
    rw [h] at hstep'
    cases hstep'
  refine ⟨s, _, _, issues_countTree, hs, hsp, hok, hsp', hok', hl, hl', fun m => ⟨fun hm => ?_, fun hm => ?_⟩⟩
  · exact ⟨iterates_countLoop hcode m, hruns countHost 3 m hm (iterates_countLoop hcode m)⟩
  · exact ⟨iterates_eachLoop hcode m, hruns' countHost 3 m hm (iterates_eachLoop hcode m)⟩

end NodeGraph
