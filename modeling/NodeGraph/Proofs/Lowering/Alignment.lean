import NodeGraph.Proofs.Bytecode.Elision
import NodeGraph.Proofs.Lowering.Growth

/-!
# Code without idle copies while it is written

Two walks over a tree that differ in where pins are stored emit the same instructions, but one of them
leaves out copies. `Aligned` relates the code of both at any moment, given the program that the first walk
will end with: that program says which copies are idle and so at which address of the shorter code an
instruction of the longer one stands. The relation is kept when both walks emit an instruction, when one
leaves out an idle copy, and when jumps are given their distances.
-/
namespace NodeGraph

/-- A function of the values goes through an insertion. -/
theorem SortedMap.insertEntry_map {κ ν ν' : Type} [Ord κ] (f : ν → ν') (k : κ) (v : ν) (l : List (κ × ν)) :
    insertEntry k (f v) (l.map fun e => (e.1, f e.2)) = (insertEntry k v l).map fun e => (e.1, f e.2) := by
  induction l with
  | nil => rfl
  | cons e l ih =>
    cases hcompare : compare k e.1 <;> simp [insertEntry, hcompare, ih]

theorem Instruction.isSome_forward?_shape (i : Instruction) : i.shape.forward?.isSome = i.forward?.isSome := by
  cases i <;> rfl

/-- A jump is replaced by the same jump with another distance. -/
theorem Bytecode.setOffset_eq_ok {b c : Bytecode} {a offset : Nat} (h : b.setOffset a offset = .ok c) :
    ∃ i j, b.instructions[a]? = some i ∧ i.withOffset? offset = some j ∧
      c = { b with instructions := b.instructions.set a j } := by
  unfold setOffset at h
  split at h
  · next j hj =>
    obtain ⟨i, hi, hij⟩ := Option.bind_eq_some_iff.1 hj
    exact ⟨i, j, hi, hij, (Except.ok.inj h).symm⟩
  · cases h

namespace Program

variable {p q : Program} {ρ : Cell → Cell} {b b' c c' : Bytecode} {i j : Instruction} {a n : Nat}
  {stack stack' : Option CallStack}

theorem isIdle_shape (i : Instruction) : p.isIdle ρ i.shape = p.isIdle ρ i := by
  cases i <;> rfl

theorem rank_mono (h : a ≤ n) : p.rank ρ a ≤ p.rank ρ n :=
  (List.take_sublist_take_left h).countP_le

/-- The code `b` may become that of `p`. -/
def Begins (p : Program) (b : Bytecode) : Prop := b.shape <+: p.bytecode.shape

theorem Begins.exists_getElem? (h : p.Begins b) (hi : b.instructions[a]? = some i) :
    ∃ i', p.bytecode.instructions[a]? = some i' ∧ i'.shape = i.shape := by
  have hshape : b.shape[a]? = some i.shape := by simp [Bytecode.shape, hi]
  obtain ⟨rest, hrest⟩ := h
  have hsame : p.bytecode.shape[a]? = some i.shape := by
    rw [← hrest, List.getElem?_append_left (List.getElem?_eq_some_iff.1 hshape).1]
    exact hshape
  simpa [Bytecode.shape] using hsame

/-- The address of the instruction after one that is emitted. -/
theorem Begins.rank_push (h : p.Begins (b.push i stack)) :
    p.rank ρ (b.size + 1) = if p.isIdle ρ i then p.rank ρ b.size else p.rank ρ b.size + 1 := by
  have hi : (b.push i stack).instructions[b.size]? = some i := by simp [Bytecode.push, Bytecode.size]
  obtain ⟨i', hi', hshape⟩ := h.exists_getElem? hi
  rw [rank_succ hi', ← isIdle_shape i', hshape, isIdle_shape]

theorem Begins.rank_lt (h : p.Begins b) (hi : b.instructions[a]? = some i) (hidle : p.isIdle ρ i = false)
    (hlt : a < n) : p.rank ρ a < p.rank ρ n := by
  obtain ⟨i', hi', hshape⟩ := h.exists_getElem? hi
  have hsucc : p.rank ρ (a + 1) = p.rank ρ a + 1 := by
    rw [rank_succ hi', ← isIdle_shape i', hshape, isIdle_shape, hidle]
    rfl
  exact Nat.lt_of_lt_of_le (by rw [hsucc]; exact Nat.lt_succ_self _) (rank_mono hlt)

/-! ## Aligned code -/

variable (p q ρ) in
/-- `b'` has the instructions of `b` that are not idle, after the renaming. -/
structure Aligned (b b' : Bytecode) : Prop where
  entries : b'.entries.toList = b.entries.toList.map fun e => (e.1, p.rank ρ e.2)
  size : b'.size = p.rank ρ b.size
  code : ∀ {a i}, b.instructions[a]? = some i → p.isIdle ρ i = false →
    ∃ j, b'.instructions[p.rank ρ a]? = some j ∧
      i.Follows (fun o o' => (p.place o).rename ρ = q.place o') (p.rank ρ) a j

theorem Aligned.elides (h : p.Aligned q ρ p.bytecode q.bytecode) : p.Elides ρ q := ⟨h.entries, h.size, h.code⟩

theorem aligned_empty : p.Aligned q ρ {} {} := ⟨rfl, rfl, fun h => nomatch h⟩

section

variable (h : p.Aligned q ρ b b')

include h

/-- Both walks emit an instruction. -/
theorem Aligned.push (hbegins : p.Begins (b.push i stack)) (hidle : p.isIdle ρ i = false)
    (hfollows : i.Follows (fun o o' => (p.place o).rename ρ = q.place o') (p.rank ρ) b.size j) :
    p.Aligned q ρ (b.push i stack) (b'.push j stack') := by
  have hsize (b : Bytecode) (i : Instruction) (stack : Option CallStack) : (b.push i stack).size = b.size + 1 := by
    simp [Bytecode.push, Bytecode.size]
  refine ⟨h.entries, ?_, fun {a i'} hi' hidle' => ?_⟩
  · rw [hsize, hsize, hbegins.rank_push, hidle, h.size]
    rfl
  · have hi' : (b.instructions ++ [i])[a]? = some i' := hi'
    show ∃ j', (b'.instructions ++ [j])[p.rank ρ a]? = some j' ∧ _
    rcases Nat.lt_trichotomy a b.size with hlt | rfl | hgt
    · rw [List.getElem?_append_left hlt] at hi'
      obtain ⟨j', hj', hfollows'⟩ := h.code hi' hidle'
      refine ⟨j', ?_, hfollows'⟩
      rw [List.getElem?_append_left (List.getElem?_eq_some_iff.1 hj').1]
      exact hj'
    · rw [Bytecode.size, List.getElem?_concat_length] at hi'
      cases hi'
      exact ⟨j, by rw [← h.size, Bytecode.size, List.getElem?_concat_length], hfollows⟩
    · rw [List.getElem?_eq_none (by rw [List.length_append]; exact hgt)] at hi'
      cases hi'

/-- One walk leaves out an idle copy. -/
theorem Aligned.skip (hbegins : p.Begins (b.push i stack)) (hidle : p.isIdle ρ i = true) :
    p.Aligned q ρ (b.push i stack) b' := by
  refine ⟨h.entries, ?_, fun {a i'} hi' hidle' => ?_⟩
  · have hsize : (b.push i stack).size = b.size + 1 := by simp [Bytecode.push, Bytecode.size]
    rw [hsize, hbegins.rank_push, if_pos hidle]
    exact h.size
  · have hi' : (b.instructions ++ [i])[a]? = some i' := hi'
    by_cases hlt : a < b.size
    · rw [List.getElem?_append_left hlt] at hi'
      exact h.code hi' hidle'
    · rw [List.getElem?_append_right (Nat.le_of_not_lt hlt), List.getElem?_singleton] at hi'
      split at hi'
      · cases hi'
        exact absurd hidle (by simp [hidle'])
      · cases hi'


/-- A jump gets the next instruction as its destination. -/
theorem Aligned.land (hbegins : p.Begins b)
    (hforward : ∃ i, p.bytecode.instructions[a]? = some i ∧ i.forward?.isSome)
    (hc : b.setOffset a (b.size - a) = .ok c) (hc' : b'.setOffset (p.rank ρ a) (b'.size - p.rank ρ a) = .ok c') :
    p.Aligned q ρ c c' := by
  obtain ⟨i, i', hi, hi', rfl⟩ := Bytecode.setOffset_eq_ok hc
  have hforward : i.forward?.isSome := by
    obtain ⟨k, hk, hforward⟩ := hforward
    obtain ⟨k', hk', hshape⟩ := hbegins.exists_getElem? hi
    cases hk.symm.trans hk'
    rw [← i.isSome_forward?_shape, ← hshape, k.isSome_forward?_shape]
    exact hforward
  have hlt : a < b.size := (List.getElem?_eq_some_iff.1 hi).1
  have hidle : p.isIdle ρ i = false := by cases i <;> first | rfl | cases hforward
  have hle : p.rank ρ a ≤ b'.size := h.size ▸ rank_mono (Nat.le_of_lt hlt)
  have hland : p.rank ρ (a + (b.size - a)) = p.rank ρ a + (b'.size - p.rank ρ a) := by
    rw [Nat.add_sub_cancel' (Nat.le_of_lt hlt), Nat.add_sub_cancel' hle, h.size]
  obtain ⟨j, hj, hfollows⟩ := h.code hi hidle
  obtain ⟨j1, j', hj1, hj', rfl⟩ := Bytecode.setOffset_eq_ok hc'
  cases hj.symm.trans hj1
  refine ⟨h.entries, ?_, fun {n k} hk hidle' => ?_⟩
  · simpa [Bytecode.size] using h.size
  · by_cases hn : n = a
    · subst hn
      rw [List.getElem?_set_self hlt] at hk
      cases hk
      refine ⟨j', List.getElem?_set_self (List.getElem?_eq_some_iff.1 hj).1, ?_⟩
      cases hfollows with
      | jumpForward _ =>
        cases hi'
        cases hj'
        exact .jumpForward hland
      | jumpIf ho _ =>
        cases hi'
        cases hj'
        exact .jumpIf ho hland
      | _ => cases hforward
    · rw [List.getElem?_set_ne (Ne.symm hn)] at hk
      obtain ⟨k', hk', hfollows'⟩ := h.code hk hidle'
      have hne : p.rank ρ a ≠ p.rank ρ n := by
        rcases Nat.lt_or_gt_of_ne hn with hlt | hgt
        · exact Nat.ne_of_gt (hbegins.rank_lt hk hidle' hlt)
        · exact Nat.ne_of_lt (hbegins.rank_lt hi hidle hgt)
      exact ⟨k', by rw [List.getElem?_set_ne hne]; exact hk', hfollows'⟩

/-- A jump back goes to the same instruction. -/
theorem Aligned.follows_jumpBackward (a : Nat) {twin : Operand → Operand → Prop} :
    Instruction.Follows twin (p.rank ρ) b.size (.jumpBackward (b.size - a))
      (.jumpBackward (b'.size - p.rank ρ a)) := by
  refine .jumpBackward (Nat.sub_le _ _) (by rw [h.size]; exact Nat.sub_le _ _) ?_
  rw [h.size]
  rcases Nat.le_total a b.size with hle | hle
  · have hrank : p.rank ρ a ≤ p.rank ρ b.size := rank_mono hle
    rw [Nat.sub_sub_self hle, Nat.sub_sub_self hrank]
  · have hrank : p.rank ρ b.size ≤ p.rank ρ a := rank_mono hle
    rw [Nat.sub_eq_zero_of_le hle, Nat.sub_eq_zero_of_le hrank, Nat.sub_zero, Nat.sub_zero]

/-- An entry starts at the next instruction. -/
theorem Aligned.addEntry (name : String) :
    p.Aligned q ρ (b.addEntry name b.size) (b'.addEntry name b'.size) := by
  refine ⟨?_, h.size, h.code⟩
  show SortedMap.insertEntry name b'.size b'.entries.toList =
    (SortedMap.insertEntry name b.size b.entries.toList).map _
  rw [h.entries, h.size, SortedMap.insertEntry_map]

end

end Program
end NodeGraph
