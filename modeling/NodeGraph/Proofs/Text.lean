import Mathlib.Data.List.TakeWhile
import NodeGraph.Text.Split

/-!
# Texts as lists of characters

How joined texts, their pieces and the digits of numbers look character by character.
-/
namespace NodeGraph.Text

variable {sep : Char} {cs w : List Char}

/-- Cutting at a separator is the splitting of lists. -/
theorem pieces_eq_splitOn (sep : Char) (cs : List Char) : pieces sep cs = cs.splitOn sep := by
  induction cs with
  | nil => rfl
  | cons c cs ih =>
    rw [pieces, ih, List.splitOn, List.splitOn, List.splitOnP_cons_eq_if_modifyHead]
    by_cases hc : c = sep
    · simp [hc]
    · cases hsplit : List.splitOnP (· == sep) cs with
      | nil => exact absurd hsplit (List.splitOnP_ne_nil _ _)
      | cons piece rest => simp [hc, consHead]

theorem toList_joined (sep : String) (texts : List String) :
    (joined sep texts).toList = sep.toList.intercalate (texts.map String.toList) := by
  induction texts with
  | nil => rfl
  | cons text texts ih =>
    cases texts with
    | nil => rw [joined, List.map_singleton, List.intercalate_singleton]
    | cons text' texts =>
      rw [joined, String.toList_append, String.toList_append, ih]
      simp [List.intercalate_cons_cons]

/-- A joined text is cut into the pieces of its parts. -/
theorem pieces_joined {s : String} (hs : s.toList = [sep]) {texts : List String} (h : texts ≠ []) :
    pieces sep (joined s texts).toList = texts.flatMap fun text => pieces sep text.toList := by
  induction texts with
  | nil => exact absurd rfl h
  | cons text texts ih =>
    cases texts with
    | nil => simp [joined]
    | cons text' texts =>
      rw [joined, String.toList_append, String.toList_append, hs, List.append_assoc, List.singleton_append,
        pieces_eq_splitOn, List.splitOn_append_cons_self, ← pieces_eq_splitOn, ← pieces_eq_splitOn, ih (by simp)]
      rfl

theorem flatMap_pieces_of_notMem {texts : List String} (h : ∀ text ∈ texts, sep ∉ text.toList) :
    (texts.flatMap fun text => pieces sep text.toList) = texts.map String.toList := by
  induction texts with
  | nil => rfl
  | cons text texts ih =>
    obtain ⟨htext, htexts⟩ := List.forall_mem_cons.1 h
    have hpiece : pieces sep text.toList = [text.toList] := by
      have hsplit := List.splitOn_intercalate sep (List.forall_mem_singleton.2 htext) (List.cons_ne_nil _ _)
      rwa [List.intercalate_singleton, ← pieces_eq_splitOn] at hsplit
    rw [List.flatMap_cons, hpiece, ih htexts]
    rfl

theorem isDigit_of_mem_toString {n : Nat} {c : Char} (hc : c ∈ (toString n).toList) : c.isDigit = true := by
  rw [show toString n = Nat.repr n from rfl, Nat.toList_repr] at hc
  exact Nat.isDigit_of_mem_toDigits (b := 10) (by decide) (by decide) hc

/-! ## What follows the last separator -/

theorem afterLast_of_notMem (h : sep ∉ w) : afterLast sep w = w := by
  have hall : w.reverse.takeWhile (· ≠ sep) = w.reverse := by
    rw [List.takeWhile_eq_self_iff]
    intro c hc
    simp only [decide_eq_true_eq]
    rintro rfl
    exact h (List.mem_reverse.1 hc)
  rw [afterLast, hall, List.reverse_reverse]

theorem afterLast_append (h : sep ∉ w) (front : List Char) : afterLast sep (front ++ sep :: w) = w := by
  have hw := afterLast_of_notMem h
  unfold afterLast at hw ⊢
  have hall : ∀ c ∈ w.reverse, decide (c ≠ sep) = true := by
    intro c hc
    simp only [decide_eq_true_eq]
    rintro rfl
    exact h (List.mem_reverse.1 hc)
  rw [List.reverse_append, List.reverse_cons, List.append_assoc, List.takeWhile_append_of_pos hall]
  simp

/-- What follows the last separator has none, and comes after one or is everything. -/
theorem afterLast_eq_iff : afterLast sep cs = w ↔ sep ∉ w ∧ (cs = w ∨ ∃ front, cs = front ++ sep :: w) := by
  constructor
  · rintro rfl
    by_cases hmem : sep ∈ cs.reverse
    · obtain ⟨back, front, hsplit, hback⟩ := List.eq_append_cons_of_mem hmem
      have hcs : cs = front.reverse ++ sep :: back.reverse := by
        rw [← List.reverse_reverse cs, hsplit]
        simp
      have hnone : sep ∉ back.reverse := by simpa using hback
      rw [hcs, afterLast_append hnone]
      exact ⟨hnone, .inr ⟨_, rfl⟩⟩
    · have hnone : sep ∉ cs := by simpa using hmem
      rw [afterLast_of_notMem hnone]
      exact ⟨hnone, .inl rfl⟩
  · rintro ⟨hnone, rfl | ⟨front, rfl⟩⟩
    · exact afterLast_of_notMem hnone
    · exact afterLast_append hnone front

end NodeGraph.Text
