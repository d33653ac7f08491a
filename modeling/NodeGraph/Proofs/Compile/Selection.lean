import Mathlib
import NodeGraph.Proofs.Compile.Branching
import NodeGraph.Proofs.Lowering.Keys

/-!
# Selections

A selection compares its index with the labels of its cases, one after the other, and the first label that
is equal leads to its case (`State.compares`). The labels are literals with the texts `1`, `2` and so on,
which nothing writes. So control comes to the case that the index is the number of, or to the first one if
there is none of that number (`Tree.select_runs`).
-/
namespace NodeGraph

open Lowering

/-! ## Labels -/

namespace Text

theorem trim_eq_self {cs : List Char} (h : ∀ c ∈ cs, isBlank c = false) : trim cs = cs := by
  have hdrop {l : List Char} (hl : ∀ c ∈ l, isBlank c = false) : l.dropWhile isBlank = l := by
    cases l with
    | nil => rfl
    | cons c l => rw [List.dropWhile_cons_of_neg (by simp [hl c])]
  unfold trim trimRight trimLeft
  rw [hdrop h, hdrop (by simpa using h), List.reverse_reverse]

theorem isBlank_of_isDigit {c : Char} (h : c.isDigit = true) : isBlank c = false := by
  unfold Char.isDigit at h
  rw [Bool.and_eq_true, decide_eq_true_iff, decide_eq_true_iff] at h
  have hlo : 48 ≤ c.toNat := UInt32.le_iff_toNat_le.1 h.1
  have hhi : c.toNat ≤ 57 := UInt32.le_iff_toNat_le.1 h.2
  simp only [isBlank, blankRanges, List.any_cons, List.any_nil, Bool.or_eq_false_iff,
    Bool.and_eq_false_iff, decide_eq_false_iff_not, eq_self, and_true]
  omega

end Text

namespace TypeRegistry

variable {types : TypeRegistry} {key : String} {n : Nat} {r : Register}

theorem lookup_int32 (hint : types.get? "int32" = builtin.get? "int32") :
    types.lookup "int32" = pure ⟨"int32", .int32, 4, 4⟩ := by
  unfold lookup
  rw [hint]
  rfl

/-- The text of a number is kept as it is. -/
theorem decode_int32 (hint : types.get? "int32" = builtin.get? "int32") :
    types.decode "int32" (toString n) = pure (toString n) := by
  have hdigits : ∀ c ∈ (toString n).toList, Text.isBlank c = false := fun c hc =>
    Text.isBlank_of_isDigit (Text.isDigit_of_mem_toString hc)
  have hne : (toString n).toList.isEmpty = false := by
    rw [show toString n = Nat.repr n from rfl, Nat.toList_repr]
    exact List.isEmpty_eq_false_iff.2 Nat.toDigits_ne_nil
  unfold decode depthBound decodeWithin
  rw [lookup_int32 hint, pure_bind]
  dsimp only
  rw [Text.trim_eq_self hdigits, hne, String.ofList_toList]
  rfl

theorem label_of_buildRegister (hint : types.get? "int32" = builtin.get? "int32")
    (h : (types.buildRegister key { typeName := "int32", defaultText := toString n }).run = .ok (.ok r)) :
    r.typeName = "int32" ∧ r.isArray = false ∧ r.defaultValues = [toString n] := by
  unfold buildRegister at h
  dsimp only at h
  rw [lookup_int32 hint, pure_bind, if_neg (by simp), decode_int32 hint] at h
  cases h
  exact ⟨rfl, rfl, rfl⟩

end TypeRegistry

namespace Tree

variable {t : Tree} {env : Environment} {options : CompileOptions} {sharing : Sharing} {s : State}
  {o : Operand} {n : Nat}

/-- The register with a reserved key is a label, or that of the outcome of comparisons. -/
theorem made_of_reserved (hs : t.loweredWith env options sharing = .ok s) (hsharing : sharing.ExistsIn t.graph)
    {key : String} (hkey : Reserved key) (h : s.storage.Named key o) (externals : List ExternalVariable) :
    ∃ r, (s.program externals).origin o.cell = some (.inr { r with name := "" }) ∧
      ((∃ n : Nat, key = s!"Const::int32::{n}" ∧ o.memory = .literal ∧
        (env.types.buildRegister key { typeName := "int32", defaultText := toString n }).run = .ok (.ok r)) ∨
      key = "Scratch::Compare" ∧ o.memory = .work) := by
  obtain ⟨table, r, build, ht, hr, hmakes, hbuild⟩ := makes_of_named hs h
  refine ⟨r, ?_, ?_⟩
  · have ht : (s.program externals).memory? o.cell.memory = some table := by
      rw [← ht]
      unfold Operand.cell
      cases o.memory <;> rfl
    unfold Program.origin
    rw [ht]
    show table.registers[o.index]?.map _ = _
    rw [hr]
    rfl
  · rcases hmakes.of_reserved hsharing hkey with ⟨n, hn, hspace, rfl⟩ | h
    · exact .inl ⟨n, hn, hspace, hbuild⟩
    · exact .inr h

/-- A label is a literal whose text is its number. -/
theorem label_of_named (hs : t.loweredWith env options sharing = .ok s) (hsharing : sharing.ExistsIn t.graph)
    (hint : env.types.get? "int32" = TypeRegistry.builtin.get? "int32")
    (h : s.storage.Named s!"Const::int32::{n}" o) (externals : List ExternalVariable) :
    o.memory = .literal ∧ ∃ r, (s.program externals).origin o.cell = some (.inr r) ∧
      r.typeName = "int32" ∧ r.isArray = false ∧ r.defaultValues = [toString n] := by
  obtain ⟨r, horigin, ⟨n', hkey, hmemory, hbuild⟩ | ⟨hkey, -⟩⟩ :=
    made_of_reserved hs hsharing (reserved_label n) h externals
  · have htext : toString n = toString n' := by
      have hkey := congrArg String.toList hkey
      rw [toList_labelKey, toList_labelKey] at hkey
      exact String.toList_inj.1 (List.append_cancel_left hkey)
    obtain ⟨htype, harray, hvalues⟩ := TypeRegistry.label_of_buildRegister hint hbuild
    exact ⟨hmemory, _, horigin, htype, harray, htext ▸ hvalues⟩
  · have hkey := congrArg String.toList hkey
    rw [toList_labelKey] at hkey
    cases hkey

/-- The outcome of comparisons is in work memory. -/
theorem scratch_of_named (hs : t.loweredWith env options sharing = .ok s) (hsharing : sharing.ExistsIn t.graph)
    (h : s.storage.Named "Scratch::Compare" o) : o.memory = .work := by
  obtain ⟨-, -, ⟨n, hkey, -, -⟩ | ⟨-, hmemory⟩⟩ := made_of_reserved hs hsharing reserved_scratch h []
  · have hkey := congrArg String.toList hkey
    rw [toList_labelKey] at hkey
    cases hkey
  · exact hmemory

end Tree

/-! ## Comparisons -/

namespace Host

variable {catalog : Catalog} {V S : Type}

/-- Integers among the values of a host: the text of a number is its value, and integers are compared as
such. -/
structure Integers (host : Host catalog V S) (int : Int → V) : Prop where
  initial : ∀ {r : Register} {n : Nat}, r.typeName = "int32" → r.isArray = false →
    r.defaultValues = [toString n] → host.initial (.inr r) = int n
  equals : ∀ a b, host.truth (host.equals (int a) (int b)) = decide (a = b)

/-- Where comparisons with the labels from `n` on lead: to the target of the label that the index is equal
to, or else behind them. -/
def landing (v : Int) (n : Nat) (targets : List Nat) (behind : Nat) : Nat :=
  if n ≤ v then targets.getD (v - n).toNat behind else behind

theorem landing_cons {v : Int} {n target : Nat} (hne : v ≠ n) (targets : List Nat) (behind : Nat) :
    landing v n (target :: targets) behind = landing v (n + 1) targets behind := by
  unfold landing
  by_cases hle : (n : Int) ≤ v
  · have hlt : ((n + 1 : Nat) : Int) ≤ v := by omega
    rw [if_pos hle, if_pos hlt, show (v - n).toNat = (v - (n + 1 : Nat)).toNat + 1 by omega,
      List.getD_cons_succ]
  · rw [if_neg hle, if_neg (by omega)]

variable {host : Host catalog V S} {int : Int → V} {s : State} {externals : List ExternalVariable}
  {index scratch : Operand} {v : Int}

/-- One comparison, and the jump that depends on its outcome. -/
theorem compares_one (hint : host.Integers int) (hwhole : scratch.propertyPath = none) {label : Operand}
    {base offset n : Nat} (hequals : At 0 s.code.instructions base (.equals index label scratch))
    (hjump : At 0 s.code.instructions (base + 1) (.jumpIf scratch offset true)) {m : Machine V S}
    (hm : m.address = base) (hv : host.load m.memory ((s.program externals).place index) = int v)
    (hlabel : host.load m.memory ((s.program externals).place label) = int n) :
    host.Executes (s.program externals) m [base, base + 1] { m with
      address := if v = n then base + 1 + offset else base + 2
      memory := host.store m.memory ((s.program externals).place scratch) (host.equals (int v) (int n)) } := by
  have hfirst := host.step_equals (p := s.program externals) (hm ▸ at_zero.1 hequals)
  rw [hm, hv, hlabel] at hfirst
  generalize hmemory : host.store m.memory ((s.program externals).place scratch)
    (host.equals (int v) (int n)) = memory at hfirst ⊢
  have htruth : host.truth (host.load memory ((s.program externals).place scratch)) = decide (v = n) := by
    rw [← hmemory, host.load_store_whole hwhole, hint.equals]
  have hsecond := host.step_jumpIf (p := s.program externals) (m := { m with address := base + 1, memory })
    (at_zero.1 hjump)
  dsimp only at hsecond
  simp only [htruth, decide_eq_true_iff] at hsecond
  exact (Executes.at hm hfirst).trans (.single hsecond)

/-- Comparisons change the register of their outcome only. -/
theorem compares (hint : host.Integers int) (hwhole : scratch.propertyPath = none)
    (hindex : index.cell ≠ scratch.cell) {labels : List Operand} {targets : List Nat} {base n : Nat}
    (hcode : s.HasCode base (comparisons index scratch base labels targets))
    (hlength : targets.length = labels.length) (htargets : ∀ target ∈ targets, base + 2 * labels.length ≤ target)
    (hapart : ∀ label ∈ labels, label.cell ≠ scratch.cell) {m : Machine V S} (hm : m.address = base)
    (hv : host.load m.memory ((s.program externals).place index) = int v)
    (hlabels : ∀ {j label}, labels[j]? = some label →
      host.load m.memory ((s.program externals).place label) = int (n + j : Nat)) :
    ∃ as memory, host.Executes (s.program externals) m as
        { m with address := landing v n targets (base + 2 * labels.length), memory } ∧
      (∀ a ∈ as, base ≤ a ∧ a < base + 2 * labels.length) ∧
      ∀ c, c ≠ scratch.cell → memory c = m.memory c := by
  induction labels generalizing targets base n m with
  | nil =>
    obtain rfl := List.length_eq_zero_iff.1 hlength
    have hlanding : landing v n [] (base + 2 * 0) = m.address := by simp [landing, hm]
    refine ⟨[], m.memory, ?_, by simp, fun _ _ => rfl⟩
    rw [List.length_nil, hlanding]
    exact .refl m
  | cons label labels ih =>
    obtain ⟨target, targets, rfl⟩ := List.exists_cons_of_length_eq_add_one hlength
    have htarget := htargets target (by simp)
    rw [List.length_cons] at htarget ⊢
    have hlabel : host.load m.memory ((s.program externals).place label) = int n := hlabels (j := 0) rfl
    have hone := compares_one hint hwhole hcode.head hcode.rest.head hm hv hlabel
    by_cases hvn : v = n
    · have hlanding : landing v n (target :: targets) (base + 2 * (labels.length + 1)) = target := by
        simp [landing, hvn]
      rw [if_pos hvn, show base + 1 + (target - (base + 1)) = target by omega] at hone
      rw [hlanding]
      refine ⟨_, _, hone, fun a ha => ?_, fun c hc => host.store_of_ne hc _ _⟩
      have ha : a = base ∨ a = base + 1 := by simpa using ha
      omega
    · rw [if_neg hvn] at hone
      have htargets' : ∀ target' ∈ targets, base + 2 + 2 * labels.length ≤ target' := fun target' h => by
        have := htargets target' (by simp [h])
        rw [List.length_cons] at this
        omega
      have hapart' : ∀ label' ∈ labels, label'.cell ≠ scratch.cell := fun label' h => hapart label' (by simp [h])
      obtain ⟨as, memory, hrest, hinside, hframe⟩ := ih (n := n + 1)
        (m := { m with
          address := base + 2
          memory := host.store m.memory ((s.program externals).place scratch) (host.equals (int v) (int n)) })
        hcode.rest.rest (by simpa using hlength) htargets' hapart' rfl
        ((host.load_store_of_ne hindex _ _).trans hv)
        (fun {j label'} h => by
          rw [host.load_store_of_ne (hapart' label' (List.mem_of_getElem? h)), hlabels (j := j + 1) h,
            show n + (j + 1) = n + 1 + j by omega])
      rw [landing_cons hvn, show base + 2 * (labels.length + 1) = base + 2 + 2 * labels.length by omega]
      refine ⟨_, memory, hone.trans hrest, fun a ha => ?_, fun c hc => ?_⟩
      · rcases List.mem_append.1 ha with ha | ha
        · have ha : a = base ∨ a = base + 1 := by simpa using ha
          omega
        · have := hinside a ha
          omega
      · rw [hframe c hc]
        exact host.store_of_ne hc _ _

end Host

/-! ## Cases -/

namespace Lowering.State

variable {s : State} {result : Operand} {stop lo hi a : Nat} {arms : List (ExprId × Operand)} {starts : List Nat}
  {z : Option ExprId} {tail : List Instruction} {i : Instruction}

/-- Induction over the cases of a selection, from the last one on. -/
theorem Cases.induction {P : List (ExprId × Operand) → List Nat → Prop} (h : s.Cases result stop arms starts)
    (last : ∀ {arm start}, s.Stretch (some arm.1) (copyCode arm.2 result) start stop → P [arm] [start])
    (front : ∀ {arm arms start follow starts skip},
      s.Stretch (some arm.1) (copyCode arm.2 result) start skip →
      At 0 s.code.instructions skip (.jumpForward (stop - skip)) → skip < stop → follow = skip + 1 →
      P arms (follow :: starts) → P (arm :: arms) (start :: follow :: starts)) : P arms starts := by
  induction arms generalizing starts with
  | nil => cases h
  | cons arm arms ih =>
    cases starts with
    | nil => cases arms <;> cases h
    | cons start starts =>
      cases arms with
      | nil =>
        cases starts with
        | nil => exact last h
        | cons follow starts => cases h
      | cons next arms =>
        cases starts with
        | nil => cases h
        | cons follow starts =>
          obtain ⟨skip, harm, hjump, hlt, hfollow, hrest⟩ := h
          exact front harm hjump hlt hfollow (ih hrest)

theorem Cases.length_eq (h : s.Cases result stop arms starts) : starts.length = arms.length :=
  h.induction (P := fun arms starts => starts.length = arms.length) (fun _ => rfl)
    fun _ _ _ _ ih => congrArg (· + 1) ih

theorem Stretch.le {cx : Context} (hlowered : cx.Lowered s) (h : s.Stretch z tail lo hi) : lo ≤ hi := by
  obtain ⟨middle, hpart, -, rfl⟩ := h
  exact Nat.le_trans (hlowered.closed_part hpart).1 (Nat.le_add_right _ _)

/-- The cases are one behind the other. -/
theorem Cases.pairwise {cx : Context} (hlowered : cx.Lowered s) (h : s.Cases result stop arms starts) :
    (starts ++ [stop]).Pairwise (· ≤ ·) := by
  refine h.induction (P := fun _ starts => (starts ++ [stop]).Pairwise (· ≤ ·))
    (fun harm => by simpa using harm.le hlowered) ?_
  intro arm arms start follow starts skip harm _ _ hfollow ih
  refine List.pairwise_cons.2 ⟨fun y hy => ?_, ih⟩
  have hstart := harm.le hlowered
  rcases List.mem_cons.1 hy with rfl | hy
  · omega
  · have := (List.pairwise_cons.1 ih).1 y hy
    omega

/-- An address in the code of an expression, which is between two addresses. -/
def Covers (s : State) (e : ExprId) (lo hi a : Nat) : Prop :=
  ∃ start stop, ⟨e, start, stop⟩ ∈ s.spans ∧ lo ≤ start ∧ start ≤ a ∧ a < stop ∧ stop ≤ hi

theorem Covers.widen {e : ExprId} {lo' hi' : Nat} (h : s.Covers e lo hi a) (hlo : lo' ≤ lo) (hhi : hi ≤ hi') :
    s.Covers e lo' hi' a := by
  obtain ⟨start, stop, hsp, hle, hstart, hstop, hle'⟩ := h
  exact ⟨start, stop, hsp, Nat.le_trans hlo hle, hstart, hstop, Nat.le_trans hle' hhi⟩

/-- What is not among the instructions of a stretch is in the code of its expression. -/
theorem Stretch.covers {e : ExprId} (h : s.Stretch (some e) tail lo hi) (hlo : lo ≤ a) (hhi : a < hi)
    (hx : At 0 s.code.instructions a i) (htail : i ∉ tail) : s.Covers e lo hi a := by
  obtain ⟨middle, hpart, hcode, rfl⟩ := h
  rcases Nat.lt_or_ge a middle with hlt | hge
  · rcases hpart with hsp | ⟨rfl, -⟩
    · exact ⟨lo, middle, hsp, Nat.le_refl _, hlo, hlt, Nat.le_add_right _ _⟩
    · omega
  · obtain ⟨y, hy⟩ : ∃ y, tail[a - middle]? = some y := ⟨_, List.getElem?_eq_getElem (by omega)⟩
    obtain rfl : i = y := Option.some.inj (hx.2.symm.trans (hcode ⟨hge, hy⟩).2)
    exact absurd (List.mem_of_getElem? hy) htail

end Lowering.State

/-- Whether an instruction compares values or jumps by the outcome. -/
def Instruction.isComparison : Instruction → Bool
  | equals .. | jumpIf .. => true
  | _ => false

theorem notMem_copyCode {i : Instruction} (h : i.isComparison = true) (source target : Operand) :
    i ∉ copyCode source target := by
  intro hi
  unfold copyCode at hi
  split at hi
  · cases hi
  · obtain rfl := List.mem_singleton.1 hi
    cases h

/-- The comparisons among the cases are in the code of their values. -/
theorem Lowering.State.Cases.covers {cx : Context} {s : State} {result : Operand} {stop start a : Nat}
    {arms : List (ExprId × Operand)} {starts : List Nat} {i : Instruction} (hlowered : cx.Lowered s)
    (h : s.Cases result stop arms starts) (hi : At 0 s.code.instructions a i)
    (hcomparison : i.isComparison = true) (hstop : a < stop)
    (hhead : starts.head? = some start) (hstart : start ≤ a) : ∃ arm ∈ arms, s.Covers arm.1 start stop a := by
  refine h.induction (P := fun arms starts => ∀ start, starts.head? = some start → start ≤ a →
    ∃ arm ∈ arms, s.Covers arm.1 start stop a) ?_ ?_ start hhead hstart
  · intro arm start harm _ hhead hstart
    cases hhead
    exact ⟨arm, by simp, harm.covers hstart hstop hi (notMem_copyCode hcomparison _ _)⟩
  · intro arm arms start follow starts skip harm hjump hlt hfollow ih _ hhead hstart
    cases hhead
    rcases Nat.lt_trichotomy a skip with hskip | rfl | hskip
    · have hcovers := harm.covers hstart hskip hi (notMem_copyCode hcomparison _ _)
      exact ⟨arm, by simp, hcovers.widen (Nat.le_refl _) (Nat.le_of_lt hlt)⟩
    · cases Option.some.inj (hi.2.symm.trans hjump.2)
      cases hcomparison
    · obtain ⟨arm', harm', hcovers⟩ := ih follow rfl (by omega)
      have hle := harm.le hlowered
      exact ⟨arm', by simp [harm'], hcovers.widen (by omega) (Nat.le_refl _)⟩

/-! ## The case that is run -/

namespace Host

variable {catalog : Catalog} {V S : Type} (host : Host catalog V S)

/-- Literals have their first values. -/
def HoldsLiterals (p : Program) (memory : Cell → V) : Prop :=
  ∀ {c r}, c.memory = .literal → p.origin c = some r → memory c = host.initial r

/-- Between two addresses there is a case: what is lowered for its value, then the copy to the result and,
if it is not the last case, a jump over the others. Control at its first address is at `stop` in the end. -/
def HasCase (s : State) (externals : List ExternalVariable) (result : Operand) (stop : Nat)
    (arm : ExprId × Operand) (lo out : Nat) : Prop :=
  ∃ hi ending, s.Part (some arm.1) lo hi ∧ out = hi + ending.length ∧
    (ending = copyCode arm.2 result ∨ ∃ offset, ending = copyCode arm.2 result ++ [.jumpForward offset]) ∧
    ∀ {m : Machine V S}, m.address = lo → host.RunsArm (s.program externals) m hi stop ending
      (host.copied (s.program externals) arm.2 result)

/-- Control is at the first comparison of a selection. It comes to the first address of case `k`, by
comparisons that change the register of their outcome only. -/
def RunsCase (s : State) (externals : List ExternalVariable) (x : Selection) (stop k : Nat) (m : Machine V S) :
    Prop :=
  ∃ arm lo out as memory, x.arms[k]? = some arm ∧ x.starts[k]? = some lo ∧
    (x.starts.tail ++ [stop])[k]? = some out ∧ host.HasCase s externals x.result stop arm lo out ∧
    host.Executes (s.program externals) m as { m with address := lo, memory } ∧
    (∀ a ∈ as, x.first ≤ a ∧ a < x.first + 2 * x.labels.length) ∧
    ∀ c, c ≠ x.scratch.cell → memory c = m.memory c

variable {host} {s : State} {externals : List ExternalVariable} {result : Operand} {stop k : Nat}
  {arms : List (ExprId × Operand)} {starts : List Nat} {arm : ExprId × Operand}

theorem exists_hasCase {cx : Context} (hlowered : cx.Lowered s) (h : s.Cases result stop arms starts)
    (harm : arms[k]? = some arm) : ∃ lo out, starts[k]? = some lo ∧ (starts.tail ++ [stop])[k]? = some out ∧
      host.HasCase s externals result stop arm lo out := by
  refine h.induction (P := fun arms starts => ∀ k, arms[k]? = some arm → ∃ lo out, starts[k]? = some lo ∧
    (starts.tail ++ [stop])[k]? = some out ∧ host.HasCase s externals result stop arm lo out) ?_ ?_ k harm
  · intro arm' start hstretch k hk
    cases k with
    | succ k => cases hk
    | zero =>
      cases hk
      obtain ⟨hi, hpart, hstop, hruns⟩ := runsArm_of_stretch hlowered (runsTail_copyCode _ _) hstretch
      exact ⟨start, stop, rfl, rfl, hi, _, hpart, hstop, .inl rfl, hruns⟩
  · intro arm' arms start follow starts skip hstretch hjump hlt hfollow ih k hk
    cases k with
    | succ k => exact ih k hk
    | zero =>
      cases hk
      obtain ⟨hi, hpart, hskip, hruns⟩ := runsArm_of_jump hlowered (runsTail_copyCode _ _) hstretch hjump hlt
      refine ⟨start, follow, rfl, rfl, hi, _, hpart, ?_, .inr ⟨_, rfl⟩, hruns⟩
      rw [List.length_append, List.length_singleton, ← Nat.add_assoc, ← hskip, hfollow]

end Host

/-- The number of the case for an index. -/
def Lowering.Selection.caseFor (x : Selection) (v : Int) : Nat :=
  if 1 ≤ v ∧ v < x.arms.length then v.toNat else 0

namespace Tree

variable {t : Tree} {env : Environment} {options : CompileOptions} {sharing : Sharing} {s : State} {e : ExprId}
  {x : Selection} {start stop : Nat}

section Code

variable (hx : t.SelectCode s e x start stop)

include hx

/-- The comparisons lead to the first address of the case for the index. -/
theorem SelectCode.landing_eq (v : Int) :
    x.starts[x.caseFor v]? = some (Host.landing v 1 x.starts.tail (x.first + 2 * x.labels.length)) := by
  obtain ⟨starts, hstarts⟩ := List.head?_eq_some_iff.1 hx.first
  have hlength := hx.cases.length_eq
  rw [hstarts, List.length_cons] at hlength
  rw [hstarts, List.tail_cons]
  unfold Selection.caseFor Host.landing
  rw [← hlength]
  by_cases hone : 1 ≤ v
  · rw [if_pos (show ((1 : Nat) : Int) ≤ v by omega)]
    by_cases hlt : v < (starts.length + 1 : Nat)
    · rw [if_pos ⟨hone, hlt⟩, show v.toNat = (v - (1 : Nat)).toNat + 1 by omega, List.getElem?_cons_succ,
        List.getD_eq_getElem _ _ (show (v - (1 : Nat)).toNat < starts.length by omega), List.getElem?_eq_getElem]
    · rw [if_neg (fun h => hlt h.2), List.getD_eq_default _ _ (by omega)]
      rfl
  · rw [if_neg (fun h => hone h.1), if_neg (show ¬ ((1 : Nat) : Int) ≤ v by omega)]
    rfl

/-- Every other comparison in the code of a selection is in the code of one of its values. -/
theorem SelectCode.covers {cx : Context} (hlowered : cx.Lowered s) {a : Nat} {i : Instruction}
    (hi : At 0 s.code.instructions a i) (hcomparison : i.isComparison = true) (hstart : start ≤ a)
    (hstop : a < stop) : x.first ≤ a ∧ a < x.first + 2 * x.labels.length ∨
      ∃ child, (child ∈ x.arms.map (·.1) ∨
          ∃ name, t.varForPin e name = .ok (some child)) ∧
        (s.Covers child start x.first a ∨ s.Covers child (x.first + 2 * x.labels.length) stop a) := by
  obtain ⟨before, middle, hcopies, ⟨result, hresult, -, hbefore⟩, ⟨index, hindex, -, hmiddle⟩⟩ := hx.pins
  have hle := hcopies.1
  have hle' := (hlowered.closed_part hbefore).1
  have hle'' := (hlowered.closed_part hmiddle).1
  rcases Nat.lt_or_ge a before with hlt | hge
  · obtain ⟨source, target, rfl⟩ := hcopies.2 hstart hlt hi
    cases hcomparison
  rcases Nat.lt_or_ge a middle with hlt | hge'
  · refine .inr ⟨result, .inr ⟨_, hresult⟩, .inl ?_⟩
    exact (hbefore.stretch.covers hge hlt hi (by simp)).widen hle (by omega)
  rcases Nat.lt_or_ge a x.first with hlt | hge''
  · refine .inr ⟨index, .inr ⟨_, hindex⟩, .inl ?_⟩
    exact (hmiddle.stretch.covers hge' hlt hi (by simp)).widen (by omega) (Nat.le_refl _)
  rcases Nat.lt_or_ge a (x.first + 2 * x.labels.length) with hlt | hcases
  · exact .inl ⟨hge'', hlt⟩
  · obtain ⟨arm, harm, hcovers⟩ := hx.cases.covers hlowered hi hcomparison hstop hx.first hcases
    exact .inr ⟨arm.1, .inl (List.mem_map_of_mem harm), .inr hcovers⟩

theorem SelectCode.first_le {cx : Context} (hlowered : cx.Lowered s) :
    ∀ target ∈ x.starts.tail, x.first + 2 * x.labels.length ≤ target := by
  obtain ⟨starts, hstarts⟩ := List.head?_eq_some_iff.1 hx.first
  have hpairwise := hx.cases.pairwise hlowered
  rw [hstarts] at hpairwise ⊢
  intro target htarget
  exact (List.pairwise_cons.1 hpairwise).1 target (List.mem_append_left _ htarget)

section Registers

variable (hs : t.loweredWith env options sharing = .ok s) (hsharing : sharing.ExistsIn t.graph)
  (htypes : env.types.get? "int32" = TypeRegistry.builtin.get? "int32")

include hs hsharing htypes

/-- The register of the outcome is neither that of the index nor a label. -/
theorem SelectCode.apart (hlabels : x.labels ≠ []) :
    x.index.cell ≠ x.scratch.cell ∧ ∀ label ∈ x.labels, label.cell ≠ x.scratch.cell := by
  obtain ⟨_, _, _, _, hindex⟩ := hx.pins
  have hscratch := hx.scratch hlabels
  refine ⟨fun heq => ?_, fun label hmem heq => ?_⟩
  · exact (hindex.pinOperand.whole hs hsharing).2 reserved_scratch hscratch
      ⟨congrArg Cell.memory heq, congrArg Cell.index heq⟩
  · obtain ⟨j, hj⟩ := List.getElem?_of_mem hmem
    have hliteral := (label_of_named hs hsharing htypes (hx.labels hj) []).1
    have hmemory : label.memory = x.scratch.memory := congrArg Cell.memory heq
    rw [hliteral, scratch_of_named hs hsharing hscratch] at hmemory
    cases hmemory

theorem SelectCode.runs {cx : Context} (hlowered : cx.Lowered s) {catalog : Catalog} {V S : Type}
    {host : Host catalog V S} {int : Int → V} (hint : host.Integers int) {m : Machine V S} {v : Int}
    (hm : m.address = x.first) (hliterals : host.HoldsLiterals (s.program env.externals) m.memory)
    (hv : host.load m.memory ((s.program env.externals).place x.index) = int v) :
    host.RunsCase s env.externals x stop (x.caseFor v) m := by
  have hlength := hx.length
  obtain ⟨arm, harm⟩ : ∃ arm, x.arms[x.caseFor v]? = some arm := by
    refine ⟨_, List.getElem?_eq_getElem ?_⟩
    unfold Selection.caseFor
    split <;> omega
  obtain ⟨lo, out, hlo, hout, hcase⟩ := Host.exists_hasCase hlowered hx.cases harm
  have hlanding := Option.some.inj (hlo.symm.trans (hx.landing_eq v))
  have htail : x.starts.tail.length = x.labels.length := by
    rw [List.length_tail, hx.cases.length_eq]
    omega
  by_cases hnil : x.labels = []
  · -- There is nothing to compare with.
    have hstarts : x.starts.tail = [] := List.length_eq_zero_iff.1 (by rw [htail, hnil]; rfl)
    have hfirst : lo = m.address := by
      rw [hstarts, hnil] at hlanding
      simpa [Host.landing, hm] using hlanding
    refine ⟨arm, lo, out, [], m.memory, harm, hlo, hout, hcase, ?_, by simp, fun _ _ => rfl⟩
    rw [hfirst]
    exact .refl m
  · obtain ⟨hne, hapart⟩ := hx.apart hs hsharing htypes hnil
    have hlabels {j : Nat} {label : Operand} (h : x.labels[j]? = some label) :
        host.load m.memory ((s.program env.externals).place label) = int (1 + j : Nat) := by
      obtain ⟨hmemory, r, horigin, htype, harray, htext⟩ :=
        label_of_named hs hsharing htypes (hx.labels h) env.externals
      rw [host.load_whole (hx.labels h).1, hliterals hmemory horigin, hint.initial htype harray htext,
        Nat.add_comm]
    obtain ⟨as, memory, hexecutes, hinside, hframe⟩ := Host.compares hint (hx.scratch hnil).1 hne hx.comparisons
      htail (hx.first_le hlowered) hapart hm hv hlabels
    rw [← hlanding] at hexecutes
    exact ⟨arm, lo, out, as, memory, harm, hlo, hout, hcase, hexecutes, hinside, hframe⟩

end Registers

end Code

/-- A selection runs the case that its index is the number of, or the first one if there is no such case,
and copies the value of that case to its result. It has one comparison for every case but the first. -/
theorem select_runs (hissues : t.issues env = .ok []) (hs : t.lowered env options = .ok s)
    (hsp : ⟨e, start, stop⟩ ∈ s.spans) (hok : e ∉ s.failed) (hkind : t.kind e = .ok .select)
    {values : List ExprId} (hvalues : t.subPinValues e PinName.values = .ok values) (hne : values ≠ [])
    (htypes : env.types.get? "int32" = TypeRegistry.builtin.get? "int32") :
    ∃ x, t.SelectCode s e x start stop ∧ x.arms.map (·.1) = values ∧ x.labels.length + 1 = values.length ∧
      (∀ {n label}, x.labels[n]? = some label → label.memory = .literal ∧
        ∃ r, (s.program env.externals).origin label.cell = some (.inr r) ∧ r.typeName = "int32" ∧
          r.isArray = false ∧ r.defaultValues = [toString (n + 1)]) ∧
      (∀ {a i}, s.code.instructions[a]? = some i → i.isComparison = true → start ≤ a → a < stop →
        x.first ≤ a ∧ a < x.first + 2 * x.labels.length ∨ ∃ child, t.IsChild e child ∧
          (s.Covers child start x.first a ∨ s.Covers child (x.first + 2 * x.labels.length) stop a)) ∧
      (x.starts ++ [stop]).Pairwise (· ≤ ·) ∧
      ∀ {V S : Type} (host : Host env.catalog V S) (int : Int → V) (m : Machine V S) (v : Int),
        host.Integers int → m.address = x.first →
        host.HoldsLiterals (s.program env.externals) m.memory →
        host.load m.memory ((s.program env.externals).place x.index) = int v →
        host.RunsCase s env.externals x stop (x.caseFor v) m := by
  obtain ⟨sharing, -, hexists, hwith, hlowered⟩ := lowered_of_issues hissues hs
  have hvalid := valid_of_issues hissues
  obtain ⟨y, hy, -⟩ := Checked.bind_eq_ok.1 hkind
  have hlt := lt_of_expr? (Tree.expr_eq_ok.1 hy)
  obtain ⟨x, hx⟩ := hlowered.shaped hsp hok _ hkind (by rw [hvalues]; simpa using hne)
  have harms : x.arms.map (·.1) = values := Except.ok.inj (hx.values.symm.trans hvalues)
  refine ⟨x, hx, harms, ?_, ?_, ?_, hx.cases.pairwise hlowered, ?_⟩
  · rw [hx.length, ← harms, List.length_map]
  · intro n label h
    exact label_of_named hwith hexists htypes (hx.labels h) env.externals
  · intro a i hi hcomparison hstart hstop
    refine (hx.covers hlowered (at_zero.2 hi) hcomparison hstart hstop).imp_right ?_
    rintro ⟨child, hchild, hcovers⟩
    refine ⟨child, ?_, hcovers⟩
    rcases hchild with hchild | ⟨name, hchild⟩
    · rw [harms] at hchild
      obtain ⟨values', hvalues', hmem⟩ := hvalid.exists_subPinValues hlt PinName.values
      cases hvalues.symm.trans hvalues'
      exact hmem child hchild
    · obtain ⟨var, hvar, hmem⟩ := hvalid.exists_varForPin hlt name
      cases hchild.symm.trans hvar
      exact hmem child rfl
  · intro V S host int m v hint hm hliterals hv
    exact hx.runs hwith hexists htypes hlowered hint hm hliterals hv

end Tree

/-! ## A selection with three cases -/

def switchGraph : Graph where
  nodes := [⟨"Go", .event "Go", [], none⟩, ⟨"Switch", .select, [0, 1, 2], none⟩]
  pins := [
    { node := 1, name := "Index", direction := .input, typeName := "int32" },
    { node := 1, name := "Values", direction := .input, typeName := "int32", isArray := true,
      subPins := [3, 4, 5] },
    { node := 1, name := "Result", direction := .output, typeName := "int32" },
    { node := 1, name := "0", direction := .input, typeName := "int32", defaultValue := "10", parent := some 1 },
    { node := 1, name := "1", direction := .input, typeName := "int32", defaultValue := "11", parent := some 1 },
    { node := 1, name := "2", direction := .input, typeName := "int32", defaultValue := "12", parent := some 1 }]

/-- A selection among three literals. -/
def switchTree : Tree where
  graph := switchGraph
  exprs := [
    { kind := .entry, name := "Go", children := [1], proxy := some ⟨[], .node 0⟩ },
    { kind := .select, name := "Switch", children := [2, 3, 4, 5, 6], proxy := some ⟨[], .node 1⟩ },
    { kind := .var, name := "Index", proxy := some ⟨[], .pin 0⟩ },
    { kind := .literal, name := "0", proxy := some ⟨[], .pin 3⟩ },
    { kind := .literal, name := "1", proxy := some ⟨[], .pin 4⟩ },
    { kind := .literal, name := "2", proxy := some ⟨[], .pin 5⟩ },
    { kind := .var, name := "Result", proxy := some ⟨[], .pin 2⟩ }]
  roots := [0]

theorem issues_switchTree : switchTree.issues {} = .ok [] := rfl

theorem lowered_switchTree : ∃ s, switchTree.lowered {} {} = .ok s ∧ ⟨1, 0, 9⟩ ∈ s.spans ∧ s.failed = [] ∧
    s.operands.lookup 2 = some ⟨.work, 0, none⟩ := by
  exact Checked.exists_ok_of_any (by decide +kernel)

/-- A host whose values are integers. -/
def intHost : Host ⟨[]⟩ Int Unit where
  initial
    | .inl _ => 0
    | .inr r => Nat.ofDigitChars 10 (r.defaultValues.headD "").toList 0
  zero := 0
  increment v := v + 1
  equals v w := if v = w then 1 else 0
  truth v := v ≠ 0
  member v _ := v
  setMember _ _ v := v
  setMember_member _ _ := rfl
  observes _ := true
  call _ _ _ := ((), [])
  arrayReads _ := []
  arrayWrites _ := []
  array _ _ := []
  enterBlock _ _ _ := ()
  leaveBlock _ := ()

theorem integers_intHost : intHost.Integers id where
  initial {r n} _ _ htext := by
    show ((Nat.ofDigitChars 10 (r.defaultValues.headD "").toList 0 : Nat) : Int) = n
    rw [htext, List.headD_cons, show toString n = Nat.repr n from rfl, Nat.toList_repr,
      Nat.ofDigitChars_toDigits (by decide) (by decide)]
  equals a b := by
    by_cases hab : a = b <;> simp [intHost, hab]

/-- A machine at the first comparison. Literals have their first values, all other registers `v`. -/
def intMachine (p : Program) (address : Nat) (v : Int) : Machine Int Unit where
  address
  memory c := if c.memory = .literal then (p.origin c).elim 0 intHost.initial else v
  state := ()
  calls := []

/-- Every integer leads to one of the three cases. -/
theorem Tree.select_runs_switchTree : ∃ s x, switchTree.issues {} = .ok [] ∧ switchTree.lowered {} {} = .ok s ∧
    ⟨1, 0, 9⟩ ∈ s.spans ∧ 1 ∉ s.failed ∧ switchTree.kind 1 = .ok .select ∧
    switchTree.subPinValues 1 PinName.values = .ok [3, 4, 5] ∧ switchTree.SelectCode s 1 x 0 9 ∧
    x.caseFor (-1) = 0 ∧ x.caseFor 0 = 0 ∧ x.caseFor 1 = 1 ∧ x.caseFor 2 = 2 ∧ x.caseFor 3 = 0 ∧
    ∀ v, intHost.HoldsLiterals (s.program []) (intMachine (s.program []) x.first v).memory ∧
      intHost.load (intMachine (s.program []) x.first v).memory ((s.program []).place x.index) = v ∧
      intHost.RunsCase s [] x 9 (x.caseFor v) (intMachine (s.program []) x.first v) := by
  obtain ⟨s, hs, hsp, hnone, hindex⟩ := lowered_switchTree
  have hok : 1 ∉ s.failed := by simp [hnone]
  obtain ⟨x, hx, harms, -, -, -, -, hruns⟩ :=
    select_runs issues_switchTree hs hsp hok rfl
      (show switchTree.subPinValues 1 PinName.values = .ok [3, 4, 5] from rfl) (by simp) rfl
  have hlength : x.arms.length = 3 := by simpa using congrArg List.length harms
  obtain ⟨_, _, -, -, var, hvar, hlookup, -⟩ := hx.pins
  cases hvar
  have hindex : x.index = ⟨.work, 0, none⟩ := Option.some.inj (hlookup.symm.trans hindex)
  have hliterals (v : Int) :
      intHost.HoldsLiterals (s.program []) (intMachine (s.program []) x.first v).memory := by
    intro c r hc hr
    simp [intMachine, hc, hr]
  have hload (v : Int) : intHost.load (intMachine (s.program []) x.first v).memory
      ((s.program []).place x.index) = v := by
    rw [hindex, intHost.load_whole rfl]
    rfl
  refine ⟨s, x, issues_switchTree, hs, hsp, hok, rfl, rfl, hx, ?_, ?_, ?_, ?_, ?_, fun v => ⟨hliterals v, hload v,
    hruns intHost id _ v integers_intHost rfl (hliterals v) (hload v)⟩⟩ <;>
    simp [Selection.caseFor, hlength]

end NodeGraph
