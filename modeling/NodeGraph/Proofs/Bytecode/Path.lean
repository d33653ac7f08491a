import Mathlib.Data.List.Chain
import NodeGraph.Proofs.Bytecode.Layout

/-!
# Paths of control

A path is a sequence of addresses that control may run through, from an entry on; a conditional jump may
go either way. Code with a layout is entered at the top of its loops only, so a path from in front of an
address to behind it has two ways: through the address, or by a forward jump over it
(`Path.mem_or_jumps_over`).
-/
namespace NodeGraph

/-- The addresses at which control may go on after an instruction at `address`. -/
def Instruction.successors (address : Nat) : Instruction → List Nat
  | jumpForward offset => [address + offset]
  | jumpBackward offset => if offset ≤ address then [address - offset] else []
  | jumpIf _ offset _ => [address + 1, address + offset]
  | exit => []
  | _ => [address + 1]

/-- Control goes on at the next address, or where a jump leads. -/
theorem Instruction.eq_succ_or_jumpTarget? {x : Instruction} {i j : Nat} (h : j ∈ x.successors i) :
    j = i + 1 ∨ x.jumpTarget? i = some j := by
  cases x with
  | jumpForward offset => exact .inr (by simp_all [successors, jumpTarget?])
  | jumpBackward offset =>
    simp only [successors] at h
    split at h
    · next hle => exact .inr (by simp_all [jumpTarget?])
    · cases h
  | jumpIf condition offset expected =>
    have hj : j = i + 1 ∨ j = i + offset := by simpa [successors] using h
    exact hj.imp_right fun hj => by simp [jumpTarget?, hj]
  | exit => cases h
  | _ => exact .inl (by simpa [successors] using h)

namespace Bytecode

variable {b : Bytecode} {a i j k q x y : Nat} {ms : List Nat}

/-- Control may go from one address to the other. -/
def Flows (b : Bytecode) (i j : Nat) : Prop :=
  ∃ x, b.instructions[i]? = some x ∧ j ∈ x.successors i

/-- Control may run through these addresses, from an entry on. -/
structure Path (b : Bytecode) (path : List Nat) : Prop where
  flows : path.IsChain b.Flows
  entry : ∃ name a, (name, a) ∈ b.entries.toList ∧ path.head? = some a

/-- Every path to `k` has been at `q` before. -/
def Dominates (b : Bytecode) (q k : Nat) : Prop := ∀ front, b.Path (front ++ [k]) → q ∈ front

theorem Flows.cases (h : b.Flows i j) :
    j = i + 1 ∨ Forward 0 b.instructions i j ∨ Backward 0 b.instructions i j := by
  obtain ⟨x, hx, hj⟩ := h
  exact (Instruction.eq_succ_or_jumpTarget? hj).imp_right (jump_of_jumpTarget? ⟨Nat.zero_le _, hx⟩)

/-- Where control can be that has not come to `q` nor jumped over it: in front of it, or behind `k`, and
then no loop leads back to in between. -/
def Apart (b : Bytecode) (q k x : Nat) : Prop :=
  x < q ∨ k < x ∧ ∀ {j u}, Backward 0 b.instructions j u → x ≤ j → u ≤ k → u ≤ q

theorem Apart.step (hloops : Layout.Loops 0 b.instructions ms) (hlands : Layout.Lands 0 b.instructions)
    (h : b.Apart q k x) (hflow : b.Flows x y) (hne : y ≠ q) (hover : ¬ (x < q ∧ q < y ∧ y ≤ k)) :
    b.Apart q k y := by
  rcases h with hx | ⟨hx, hback⟩
  · rcases hflow.cases with rfl | hf | hb
    · exact .inl (by omega)
    · by_cases hy : k < y
      · refine .inr ⟨hy, fun {j u} hb hle hu => ?_⟩
        -- A loop between `q` and `k` would be entered behind its top.
        have := hloops.entered hf hb
        omega
      · exact .inl (by omega)
    · have := hlands.loop hb
      exact .inl (by omega)
  · rcases hflow.cases with rfl | hf | hb
    · exact .inr ⟨by omega, fun hb hle => hback hb (by omega)⟩
    · have := hlands.forward hf
      exact .inr ⟨by omega, fun hb hle => hback hb (by omega)⟩
    · by_cases hy : k < y
      · refine .inr ⟨hy, fun {j' u'} hb' hle hu => ?_⟩
        by_cases hj : x ≤ j'
        · exact hback hb' hj hu
        · -- A loop that ends inside another one starts there.
          have := hloops.nested hb hb'
          omega
      · have := hback hb (Nat.le_refl x) (by omega)
        exact .inl (by omega)

/-- Along a path that avoids `q` and does not jump over it, control stays apart. -/
theorem Apart.run (hloops : Layout.Loops 0 b.instructions ms) (hlands : Layout.Lands 0 b.instructions)
    {path : List Nat} (hflows : path.IsChain b.Flows) (hq : q ∉ path)
    (hover : ∀ i j, [i, j] <:+: path → ¬ (i < q ∧ q < j ∧ j ≤ k))
    (hstart : ∀ a ∈ path.head?, b.Apart q k a) : ∀ x ∈ path, b.Apart q k x := by
  induction path with
  | nil => simp
  | cons a path ih =>
    have ha : b.Apart q k a := hstart a rfl
    intro x hx
    rcases List.mem_cons.1 hx with rfl | hx
    · exact ha
    refine ih hflows.of_cons (fun hmem => hq (List.mem_cons_of_mem _ hmem)) ?_ ?_ x hx
    · exact fun i j hij => hover i j (hij.trans (List.suffix_cons a path).isInfix)
    · intro y hy
      obtain ⟨rest, rfl⟩ : ∃ rest, path = y :: rest := List.head?_eq_some_iff.1 hy
      have hflow : b.Flows a y := (List.isChain_cons_cons.1 hflows).1
      refine ha.step hloops hlands hflow ?_ (hover a y ⟨[], rest, rfl⟩)
      exact fun heq => hq (by simp [heq])

/-- A path from `q` or from apart to an address behind `q` comes through `q` or jumps over it. -/
theorem Path.mem_or_jumps_over (hloops : Layout.Loops 0 b.instructions ms)
    (hlands : Layout.Lands 0 b.instructions) {front : List Nat} (hpath : b.Path (front ++ [k]))
    (hqk : q < k) (hstart : ∀ a ∈ (front ++ [k]).head?, a = q ∨ b.Apart q k a) :
    q ∈ front ∨ ∃ i j, [i, j] <:+: front ++ [k] ∧ i < q ∧ q < j ∧ j ≤ k := by
  by_cases hq : q ∈ front
  · exact .inl hq
  refine .inr (Classical.byContradiction fun hnone => ?_)
  have hnot : q ∉ front ++ [k] := by
    intro hmem
    rcases List.mem_append.1 hmem with hmem | hmem
    · exact hq hmem
    · have := List.mem_singleton.1 hmem
      omega
  have hover : ∀ i j, [i, j] <:+: front ++ [k] → ¬ (i < q ∧ q < j ∧ j ≤ k) :=
    fun i j hij h => hnone ⟨i, j, hij, h⟩
  have hfirst : ∀ a ∈ (front ++ [k]).head?, b.Apart q k a := by
    intro a ha
    exact (hstart a ha).resolve_left fun heq => hnot (heq ▸ List.mem_of_head? ha)
  have hk := Apart.run hloops hlands hpath.flows hnot hover hfirst k (by simp)
  rcases hk with hk | hk <;> omega

/-- Control that comes to the start of straight code runs through all of it before it is elsewhere. -/
theorem Path.mem_of_straight {front : List Nat} (hpath : b.Path (front ++ [k]))
    (hstraight : ∀ {a j}, x ≤ a → a < y → b.Flows a j → j = a + 1) (hx : x ∈ front) (hk : k < x ∨ y ≤ k) :
    ∀ {n}, x + n < y → x + n ∈ front := by
  intro n
  induction n with
  | zero => exact fun _ => hx
  | succ n ih =>
    intro hn
    obtain ⟨before, after, rfl⟩ := List.append_of_mem (ih (by omega))
    have hflows := hpath.flows
    rw [List.append_assoc, List.cons_append] at hflows
    have hrest := (List.isChain_append.1 hflows).2.1
    cases after with
    | nil =>
      have := hstraight (by omega) (by omega) (List.isChain_cons_cons.1 hrest).1
      omega
    | cons j after =>
      have := hstraight (by omega) (by omega) (List.isChain_cons_cons.1 hrest).1
      rw [show x + (n + 1) = j by omega]
      simp

end Bytecode
end NodeGraph
