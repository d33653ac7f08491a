import Mathlib.Data.List.Induction
import NodeGraph.Proofs.Types.Registration

/-!
# Sizes beyond a word

Structures that contain each other grow with every definition, and nothing keeps their sizes within a word:
after twenty-seven definitions of a pair, each of two of the pairs before, the next one ends in a fault
(`registerAll_pairs`). The fault is met exactly where the fields are too large, and nothing is ever divided by
zero. Sizes are at most multiplied by the number of fields, rounding included, so `n` definitions with up to
`k` fields are safe as long as `24 * k ^ n` is a word: 24 is the size of the largest type there is at the
start.
-/
namespace NodeGraph.TypeRegistry

variable {r r' : TypeRegistry} {d : TypeDefinition} {ds : List TypeDefinition} {log : List Call} {layout : Nat × Nat}
  {fields : List StructField} {types : List TypeInfo} {k bound : Nat}

/-! ## Bounds -/

/-- No type is larger than a bound that is a multiple of all alignments. -/
structure Bounded (r : TypeRegistry) (bound : Nat) : Prop where
  aligned : r.Aligned
  size : ∀ info ∈ r.types, info.size ≤ bound
  unit : 8 ∣ bound
  pos : 0 < bound

theorem bounded_builtin : builtin.Bounded 24 := ⟨aligned_builtin, by decide, by decide, by decide⟩

namespace Bounded

section

variable (hr : r.Bounded bound)

include hr

theorem extent_le (h : r.FieldTypes fields types) : (extent types).1 ≤ fields.length * bound := by
  have htypes : ∀ info ∈ types, info.size ≤ bound ∧ info.alignment ∣ 8 := fun info hinfo =>
    ⟨hr.size info (h.mem info hinfo), (hr.aligned info (h.mem info hinfo)).dvd⟩
  have hle := foldl_behind_le (s := (0, 1)) (by decide) hr.unit (Nat.dvd_zero 8) (Nat.le_refl 0) htypes
  rw [Nat.zero_add, ← List.Forall₂.length_eq h] at hle
  exact hle

/-- The last rounding does not go beyond the bound, which is a multiple of the alignment. -/
theorem structSize_le (h : r.FieldTypes fields types) : structSize types ≤ fields.length * bound := by
  have hdvd : (extent types).2 ∣ 8 := by
    rcases h.extent_alignment hr.aligned with h | h | h <;> rw [h] <;> decide
  exact alignUp_le (h.extent_pos hr.aligned) (Nat.dvd_trans hdvd (Nat.dvd_mul_left_of_dvd hr.unit _)) (hr.extent_le h)

theorem not_outgrows (h : fields.length * bound < wordLimit) : ¬ r.Outgrows fields := by
  rintro (⟨front, back, types, rfl, htypes, hlarge⟩ | ⟨types, htypes, hlarge⟩)
  · have hfront : front.length * bound ≤ (front ++ back).length * bound :=
      Nat.mul_le_mul_right bound (by rw [List.length_append]; exact Nat.le_add_right _ _)
    exact absurd h (Nat.not_lt.2 (Nat.le_trans hlarge (Nat.le_trans (hr.extent_le htypes) hfront)))
  · exact absurd h (Nat.not_lt.2 (Nat.le_trans hlarge (hr.structSize_le htypes)))

theorem grow (hk : 0 < k) : r.Bounded (k * bound) where
  aligned := hr.aligned
  size info hinfo := Nat.le_trans (hr.size info hinfo) (Nat.le_mul_of_pos_left bound hk)
  unit := Nat.dvd_mul_left_of_dvd hr.unit k
  pos := Nat.mul_pos hk hr.pos

/-- A definition with up to `k` fields makes a type of up to `k` times the size. -/
theorem size_typeOf (hk : 0 < k) (hd : d.fields.length ≤ k) (h : r.LaidOut d layout) :
    (typeOf d layout).size ≤ k * bound := by
  have hone : 1 ≤ k * bound := Nat.mul_pos hk hr.pos
  unfold LaidOut at h
  split at h
  · next fields hkind =>
    obtain ⟨types, htypes, -, rfl⟩ := h
    have hfields : d.fields = fields := by rw [TypeDefinition.fields, hkind]
    exact Nat.le_trans (hr.structSize_le htypes) (Nat.mul_le_mul_right bound (hfields ▸ hd))
  · cases h
    exact hone
  · obtain rfl | ⟨info, hinfo, rfl⟩ := h
    · exact Nat.zero_le _
    · exact (hr.grow hk).size info hinfo

theorem insert (hk : 0 < k) (hd : d.fields.length ≤ k) (h : r.LaidOut d layout) :
    (r.insert (typeOf d layout)).Bounded (k * bound) where
  aligned := hr.aligned.insert (hr.aligned.typeOf h)
  size info hinfo := by
    obtain rfl | hinfo := mem_insert hinfo
    · exact hr.size_typeOf hk hd h
    · exact (hr.grow hk).size info hinfo
  unit := (hr.grow hk).unit
  pos := (hr.grow hk).pos

theorem of_history (hk : 0 < k) (hds : ∀ d ∈ ds, d.fields.length ≤ k) (h : r.history ds = .ok (log, r')) :
    r'.Bounded (Nat.pow k ds.length * bound) := by
  induction ds generalizing r log bound with
  | nil =>
    cases h
    exact (Nat.one_mul bound).symm ▸ hr
  | cons d ds ih =>
    obtain ⟨hd, hds⟩ := List.forall_mem_cons.1 hds
    obtain ⟨answer, left, rest, hdefine, hrest, -⟩ := history_cons h
    have hleft : left.Bounded (k * bound) := by
      obtain ⟨e, -, -, rfl⟩ | ⟨layout, hlayout, -, rfl⟩ := define_cases hdefine
      · exact hr.grow hk
      · exact hr.insert hk hd (laidOut_of_layout hr.aligned hlayout)
    have hpow : Nat.pow k ds.length * (k * bound) = Nat.pow k (d :: ds).length * bound :=
      (Nat.mul_assoc _ _ _).symm
    exact hpow ▸ ih hleft hds hrest

end

end Bounded

/-! ## Histories that come to an end -/

theorem history_snoc {middle : TypeRegistry} {answer : Except TypeError TypeInfo} (h : r.history ds = .ok (log, middle))
    (hd : (define d).run.run middle = .ok (answer, r')) : r.history (ds ++ [d]) = .ok (log ++ [⟨d, answer⟩], r') := by
  induction ds generalizing r log with
  | nil =>
    cases h
    simp only [List.nil_append, history, hd]
    rfl
  | cons first ds ih =>
    obtain ⟨answer', left, rest, hdefine, hrest, rfl⟩ := history_cons h
    simp only [List.cons_append, history, hdefine, Checked.ok_bind, ih hrest]
    rfl

/-- Definitions with few fields come to an end, each with a type or a type error. -/
theorem exists_history (hk : 0 < k) (hds : ∀ d ∈ ds, d.fields.length ≤ k) (h : 24 * Nat.pow k ds.length < wordLimit) :
    ∃ log r, builtin.history ds = .ok (log, r) := by
  induction ds using List.reverseRecOn with
  | nil => exact ⟨[], builtin, rfl⟩
  | append_singleton ds d ih =>
    obtain ⟨hds, hd⟩ := List.forall_mem_append.1 hds
    have hd : d.fields.length ≤ k := hd d (by simp)
    rw [List.length_append, List.length_singleton] at h
    have hpow : 24 * Nat.pow k (ds.length + 1) = k * (Nat.pow k ds.length * 24) := by
      rw [show Nat.pow k (ds.length + 1) = Nat.pow k ds.length * k from rfl, Nat.mul_comm 24, Nat.mul_comm _ k,
        Nat.mul_assoc]
    rw [hpow] at h
    obtain ⟨log, r, hhistory⟩ := ih hds <| by
      rw [Nat.mul_comm]
      exact Nat.lt_of_le_of_lt (Nat.le_mul_of_pos_left _ hk) h
    have hr := bounded_builtin.of_history hk hds hhistory
    have hfits := hr.not_outgrows (Nat.lt_of_le_of_lt (Nat.mul_le_mul_right _ hd) h)
    obtain ⟨hlarge, -⟩ | ⟨-, ⟨e, hdefine⟩ | ⟨layout, hdefine, -⟩⟩ := define_cases_of_aligned hr.aligned d
    · exact absurd hlarge hfits
    · exact ⟨_, _, history_snoc hhistory hdefine⟩
    · exact ⟨_, _, history_snoc hhistory hdefine⟩

/-- If all definitions come to an end, so do those up to the first error. -/
theorem exists_registerAll (h : r.history ds = .ok (log, r')) : ∃ answer, (r.registerAll ds).run = .ok answer := by
  induction ds generalizing r log with
  | nil => exact ⟨.ok r, rfl⟩
  | cons d ds ih =>
    obtain ⟨answer, left, rest, hdefine, hrest, -⟩ := history_cons h
    unfold registerAll
    obtain ⟨e, hlayout, -, rfl⟩ | ⟨layout, hlayout, -, rfl⟩ := define_cases hdefine
    · rw [ExceptT.run_bind, register_of_error hlayout]
      exact ⟨.error e, rfl⟩
    · rw [ExceptT.run_bind, register_of_layout hlayout]
      exact ih hrest

/-- Wherever a definition stands among others, all that its layout divides by is not zero; if its fields are
too large it ends in a fault, and if not, it is refused or laid out in words. Definitions with few fields
never end in a fault. -/
theorem registration_in_words (ds : List TypeDefinition) :
    (∀ earlier d later log r, ds = earlier ++ d :: later → builtin.history earlier = .ok (log, r) →
      (∀ front back types, d.fields = front ++ back → r.FieldTypes front types →
        (extent types).2 ≠ 0 ∧ ∀ info ∈ types, info.alignment ≠ 0) ∧
      ((r.Outgrows d.fields ∧ (define d).run.run r = .error .overflow) ∨
        ¬ r.Outgrows d.fields ∧ ((∃ e, (define d).run.run r = .ok (.error e, r)) ∨
          ∃ layout, (define d).run.run r = .ok (.ok (typeOf d layout), r.insert (typeOf d layout)) ∧
            r.LaidOut d layout))) ∧
    ∀ k, 0 < k → (∀ d ∈ ds, d.fields.length ≤ k) → 24 * Nat.pow k ds.length < wordLimit →
      ∃ answer, (builtin.registerAll ds).run = .ok answer := by
  constructor
  · intro earlier d later log r _ hhistory
    have hr := aligned_of_history hhistory
    refine ⟨fun front back types _ htypes => ⟨?_, fun info hinfo => ?_⟩, define_cases_of_aligned hr d⟩
    · exact Nat.ne_of_gt (htypes.extent_pos hr)
    · exact Nat.ne_of_gt (htypes.pos hr info hinfo)
  · intro k hk hds hbound
    obtain ⟨log, r, hhistory⟩ := exists_history hk hds hbound
    exact exists_registerAll hhistory

/-! ## Pairs of pairs -/

def pairName : Nat → String
  | 0 => "string"
  | n + 1 => "Pair" ++ toString (n + 1)

/-- A pair of strings, a pair of such pairs and so on. -/
def pairs : Nat → List TypeDefinition
  | 0 => []
  | n + 1 => pairs n ++ [⟨pairName (n + 1), .struct [⟨"First", pairName n⟩, ⟨"Second", pairName n⟩]⟩]

/-- Twenty-seven pairs are within the bound. -/
theorem registration_in_words_pairs : (∀ d ∈ pairs 27, d.fields.length ≤ 2) ∧
    ∃ answer, (builtin.registerAll (pairs 27)).run = .ok answer := by
  have hfields : ∀ d ∈ pairs 27, d.fields.length ≤ 2 := by decide
  exact ⟨hfields, (registration_in_words (pairs 27)).2 2 (by decide) hfields (by decide)⟩

/-- The next one is too large. -/
theorem registerAll_pairs : (builtin.registerAll (pairs 28)).run = .error .overflow := by decide +kernel

end NodeGraph.TypeRegistry
