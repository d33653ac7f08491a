import NodeGraph.Proofs.Lowering.Alignment
import NodeGraph.Proofs.Lowering.CallStacks
import NodeGraph.Proofs.Lowering.Invariant
import NodeGraph.Proofs.Lowering.Keys

/-!
# Initializers come first

The locals of a call site are set by a stretch of code of its own, one copy for each local. It is emitted
when the walk first comes to the call site, so nothing inside the site stands before it, and in one go, so
no jump forward and no entry lands inside it. That this holds of all call sites so far is an invariant of
the emit pass (`Context.Initialized`).
-/
namespace NodeGraph

/-- The call stack recorded for an address is a call site, or one inside it. -/
def Bytecode.IsWithin (b : Bytecode) (site : CallStack) (a : Nat) : Prop :=
  ∃ stack, b.callStacks[a]? = some stack ∧ site <+: stack

/-- Control may come to an address by an entry or a jump forward. -/
def Bytecode.IsLanding (b : Bytecode) (target : Nat) : Prop :=
  (∃ name, (name, target) ∈ b.entries.toList) ∨ ∃ a, Forward 0 b.instructions a target

namespace Bytecode

variable {b : Bytecode} {block : List Instruction} {stack : CallStack} {i : Instruction} {a target : Nat}

/-- Code with a block behind it that belongs to a call stack. -/
def append (b : Bytecode) (block : List Instruction) (stack : CallStack) : Bytecode :=
  { b with
    instructions := b.instructions ++ block
    callStacks := b.callStacks ++ List.replicate block.length stack }

theorem size_append : (b.append block stack).size = b.size + block.length := List.length_append

/-- An instruction is one of those before, or one of the block. -/
theorem getElem?_append (h : (b.append block stack).instructions[a]? = some i) :
    b.instructions[a]? = some i ∨ b.size ≤ a ∧ a < b.size + block.length ∧ i ∈ block := by
  by_cases hlt : a < b.size
  · left
    rwa [append, List.getElem?_append_left hlt] at h
  · right
    have hle : b.instructions.length ≤ a := Nat.le_of_not_lt hlt
    rw [append, List.getElem?_append_right hle] at h
    obtain ⟨hin, -⟩ := List.getElem?_eq_some_iff.1 h
    have := Nat.le_of_not_lt hlt
    exact ⟨this, by unfold size at *; omega, List.mem_of_getElem? h⟩

/-- Jumps of a block that have no destination yet land at themselves. -/
theorem isLanding_append (hforward : ∀ i ∈ block, ∀ d, i.forward? = some d → d = 0)
    (h : (b.append block stack).IsLanding target) : b.IsLanding target ∨
      ∃ i ∈ block, i.forward? = some 0 ∧ b.size ≤ target ∧ target < b.size + block.length := by
  rcases h with hentry | ⟨a, i, hi, d, hd, rfl⟩
  · exact .inl (.inl hentry)
  · rcases getElem?_append hi.2 with hold | ⟨hle, hlt, hmem⟩
    · exact .inl (.inr ⟨a, i, ⟨hi.1, hold⟩, d, hd, rfl⟩)
    · have hzero := hforward i hmem d hd
      subst hzero
      exact .inr ⟨i, hmem, hd, by simpa using hle, by simpa using hlt⟩

end Bytecode

namespace Lowering

/-! ## The code that sets locals -/

/-- A copy of the default of a local into its register at a call site. -/
def Storage.IsInitializer (s : Storage) (g : Graph) (callSite : CallStack) (function : String)
    (v : LocalVariable) (i : Instruction) : Prop :=
  ∃ key source target, localKey g callSite v.name = .ok key ∧
    s.keyed.lookup (localDefaultKey function v.name) = some source ∧ s.keyed.lookup key = some target ∧
    i = .copy source target

/-- The operand is the default of a local. -/
def Storage.IsDefault (s : Storage) (o : Operand) : Prop :=
  ∃ function name, s.keyed.lookup (localDefaultKey function name) = some o

/-- The locals of a call site are set by a stretch of code, before all other code inside the site. -/
structure State.SetsLocals (t : Tree) (s : State) (r : Initialization) : Prop where
  start_le : r.start ≤ r.stop
  stop_le : r.stop ≤ s.code.size
  recorded : ∀ {a}, r.start ≤ a → a < r.stop → s.code.callStacks[a]? = some r.callSite
  first : ∀ {a}, s.code.IsWithin r.callSite a → r.start ≤ a
  called : r.start = r.stop ∨ ∃ function, t.innermostFunction r.callSite = .ok (some function)
  copies : ∀ {function}, t.innermostFunction r.callSite = .ok (some function) →
    r.stop = r.start + function.locals.length ∧ ∀ {n v}, function.locals[n]? = some v →
      ∃ i, s.code.instructions[r.start + n]? = some i ∧
        s.storage.IsInitializer t.graph r.callSite function.name v i

section SetsLocals

variable {g : Graph} {t : Tree} {callSite : CallStack} {function : String} {v : LocalVariable}
  {i : Instruction} {a b : Storage} {s s' : State} {r : Initialization}

theorem Storage.IsInitializer.mono (h : a.IsInitializer g callSite function v i) (hle : a.Extends b) :
    b.IsInitializer g callSite function v i := by
  obtain ⟨key, source, target, hkey, hsource, htarget, rfl⟩ := h
  exact ⟨key, source, target, hkey, hle.keyed hsource, hle.keyed htarget, rfl⟩

/-- Code that is added behind, and jumps that get a destination, leave the stretch as it is. -/
theorem State.SetsLocals.mono (h : s.SetsLocals t r) (hsize : s.code.size ≤ s'.code.size)
    (hstacks : ∀ a < s.code.size, s'.code.callStacks[a]? = s.code.callStacks[a]?)
    (hcopies : ∀ {a : Nat} {source target}, s.code.instructions[a]? = some (Instruction.copy source target) →
      s'.code.instructions[a]? = some (Instruction.copy source target))
    (hle : s.storage.Extends s'.storage) : s'.SetsLocals t r where
  start_le := h.start_le
  stop_le := Nat.le_trans h.stop_le hsize
  recorded {a} hstart hstop := by
    rw [hstacks a (Nat.lt_of_lt_of_le hstop h.stop_le)]
    exact h.recorded hstart hstop
  first {a} ha := by
    by_cases hlt : a < s.code.size
    · apply h.first
      obtain ⟨stack, hstack, hprefix⟩ := ha
      exact ⟨stack, by rw [← hstacks a hlt, hstack], hprefix⟩
    · have := h.start_le
      have := h.stop_le
      omega
  called := h.called
  copies {function} hfunction := by
    obtain ⟨hstop, hcode⟩ := h.copies hfunction
    refine ⟨hstop, fun {n v} hv => ?_⟩
    obtain ⟨i, hi, hinit⟩ := hcode hv
    have hinit' := hinit.mono hle
    obtain ⟨key, source, target, -, -, -, rfl⟩ := hinit
    exact ⟨_, hcopies hi, hinit'⟩

end SetsLocals

/-- What is known from around a walk: the call sites prepared before it, the expressions it may come to, and
the storage it ends with. -/
structure Outlook where
  sites : List CallStack
  known : ExprId → Prop
  final : Storage

namespace Context

variable {cx : Context} {w : Outlook} {u u' : State} {i : Instruction} {site stack : CallStack}

/-! ## The invariant -/

/-- The operand is not the default of a local, if keys can be told apart. -/
def NoDefault (cx : Context) (w : Outlook) (o : Operand) : Prop :=
  cx.tree.graph.PlainNames → ¬ w.final.IsDefault o

/-- What holds while code is emitted: the locals of every call site entered so far are set by code of their
own, all other code does without their defaults, and control comes to that code at its start. -/
structure Initialized (cx : Context) (w : Outlook) (u : State) : Prop where
  recorded : u.Recorded cx.pass
  known : ∀ e ∈ u.visited, w.known e
  operands : ∀ {e o}, u.operands.lookup e = some o → cx.NoDefault w o
  sites : cx.pass = .emit → ∀ site ∈ u.callStack.sites, site ∈ w.sites
  kept : ∀ site ∈ w.sites, cx.LocalsKept u.storage site
  noted : u.initialized = u.initializers.map Initialization.callSite
  distinct : u.initialized.Nodup
  sets : ∀ r ∈ u.initializers, u.SetsLocals cx.tree r
  others : ∀ {a i}, u.code.instructions[a]? = some i →
    (∃ r ∈ u.initializers, r.start ≤ a ∧ a < r.stop) ∨ ∀ o ∈ i.operands, cx.NoDefault w o
  landings : ∀ {target}, u.code.IsLanding target → target ≤ u.code.size ∧
    ∀ r ∈ u.initializers, target ≤ r.start ∨ r.stop ≤ target

/-- What has to be known of the tree and of the end of the walk. -/
structure Initializable (cx : Context) (w : Outlook) : Prop where
  record : cx.options.recordCallStacks = true
  sharing : cx.sharing.ExistsIn cx.tree.graph
  named : ∀ {key o}, w.final.keyed.lookup key = some o → w.final.Named key o
  child : ∀ {e x c}, w.known e → cx.tree.expr? e = some x → x.kind ≠ .exit → c ∈ x.children → w.known c
  sites : cx.pass = .emit → ∀ {e x p}, w.known e → cx.tree.expr? e = some x → x.proxy = some p →
    ∀ site ∈ p.callStack.sites, site ∈ w.sites

/-! ## Emission -/

theorem Initialized.still (h : cx.Initialized w u) (hstill : u.Still u') : cx.Initialized w u' where
  recorded := recorded_of_eq h.recorded (by rw [hstill.code]) (by rw [hstill.code]) hstill.initialized
    hstill.callStack
  known := by rw [hstill.visited]; exact h.known
  operands := by rw [hstill.operands]; exact h.operands
  sites := by rw [hstill.callStack]; exact h.sites
  kept site hsite := (h.kept site hsite).mono hstill.storage
  noted := by rw [hstill.initialized, hstill.initializers]; exact h.noted
  distinct := by rw [hstill.initialized]; exact h.distinct
  sets r hr := by
    rw [hstill.initializers] at hr
    exact (h.sets r hr).mono (by rw [hstill.code]) (by simp [hstill.code]) (by simp [hstill.code]) hstill.storage
  others := by rw [hstill.code, hstill.initializers]; exact h.others
  landings := by rw [hstill.code, hstill.initializers]; exact h.landings

section Append

variable {block : List Instruction}

theorem recorded_append {pass : Pass} (h : u.Recorded pass) (hsites : ∀ site ∈ stack.sites, site ∈ u.initialized) :
    State.Recorded pass { u with code := u.code.append block stack } where
  size := by
    have := h.size
    rw [Bytecode.size_append]
    simp [Bytecode.append, this]
  sites := by
    intro stack' hstack' site hsite
    rcases List.mem_append.1 hstack' with hold | hnew
    · exact h.sites stack' hold site hsite
    · rw [(List.mem_replicate.1 hnew).2] at hsite
      exact hsites site hsite
  current := h.current

theorem SetsLocals.append {t : Tree} {r : Initialization} (h : u.SetsLocals t r)
    (hsize : u.code.callStacks.length = u.code.size) :
    State.SetsLocals t { u with code := u.code.append block stack } r := by
  apply h.mono
  · rw [Bytecode.size_append]
    omega
  · intro a ha
    exact List.getElem?_append_left (by omega)
  · intro a source target ha
    exact List.getElem?_append_left (List.getElem?_eq_some_iff.1 ha).1 ▸ ha
  · exact .refl _

/-- An instruction under the current call stack. -/
theorem Initialized.emit (h : cx.Initialized w u) (hpass : cx.pass = .emit)
    (hdefault : ∀ o ∈ i.operands, cx.NoDefault w o) (hforward : ∀ d, i.forward? = some d → d = 0) :
    cx.Initialized w { u with code := u.code.append [i] u.callStack } :=
  { h with
    recorded := recorded_append h.recorded (h.recorded.current hpass)
    sets := fun r hr => SetsLocals.append (h.sets r hr) h.recorded.size
    others := fun ha => by
      rcases Bytecode.getElem?_append ha with hold | ⟨-, -, hmem⟩
      · exact h.others hold
      · rw [List.mem_singleton.1 hmem]
        exact .inr hdefault
    landings := fun {target} htarget => by
      rw [Bytecode.size_append]
      rcases Bytecode.isLanding_append (by simpa using hforward) htarget with hold | ⟨-, -, -, hle, hlt⟩
      · obtain ⟨hle, hclear⟩ := h.landings hold
        exact ⟨by omega, hclear⟩
      · refine ⟨by omega, fun r hr => .inr ?_⟩
        have := (h.sets r hr).stop_le
        omega }

/-- What is appended for a call site that no code was inside before comes first in it. -/
theorem setsLocals_append (hsize : u.code.callStacks.length = u.code.size) (hnone : ∀ a, ¬ u.code.IsWithin site a)
    (hcalled : block = [] ∨ ∃ function, cx.tree.innermostFunction site = .ok (some function))
    (hblock : ∀ function, cx.tree.innermostFunction site = .ok (some function) →
      List.Forall₂ (u.storage.IsInitializer cx.tree.graph site function.name) function.locals block) :
    State.SetsLocals cx.tree { u with code := u.code.append block site }
      ⟨site, u.code.size, u.code.size + block.length⟩ where
  start_le := by simp
  stop_le := Nat.le_of_eq Bytecode.size_append.symm
  recorded {a} hstart hstop := by
    have hle : u.code.callStacks.length ≤ a := by rw [hsize]; exact hstart
    show (u.code.callStacks ++ _)[a]? = _
    rw [List.getElem?_append_right hle, List.getElem?_replicate, if_pos]
    dsimp only at hstart hstop
    omega
  first {a} ha := by
    apply Nat.le_of_not_lt
    intro hlt
    obtain ⟨stack, hstack, hprefix⟩ := ha
    have hlt : a < u.code.callStacks.length := by rw [hsize]; exact hlt
    have hold : u.code.callStacks[a]? = some stack := by
      rw [← hstack]
      exact (List.getElem?_append_left hlt).symm
    exact hnone a ⟨stack, hold, hprefix⟩
  called := hcalled.imp_left fun hnil => by simp [hnil]
  copies {function} hfunction := by
    have hinits := hblock function hfunction
    refine ⟨by simp [hinits.length_eq], fun {n v} hv => ?_⟩
    obtain ⟨hn, rfl⟩ := List.getElem?_eq_some_iff.1 hv
    have hn' : n < block.length := hinits.length_eq ▸ hn
    refine ⟨block[n], ?_, hinits.get hn hn'⟩
    show (u.code.instructions ++ block)[u.code.instructions.length + n]? = _
    rw [List.getElem?_append_right (by omega)]
    simp [hn']

/-- The locals of a call site that was not entered before. -/
theorem Initialized.initialize (h : cx.Initialized w u) (hne : site ≠ []) (hnew : site ∉ u.initialized)
    (houter : ∀ outer ∈ site.sites, outer = site ∨ outer ∈ u.initialized)
    (hplain : ∀ i ∈ block, i.forward? = none)
    (hcalled : block = [] ∨ ∃ function, cx.tree.innermostFunction site = .ok (some function))
    (hblock : ∀ function, cx.tree.innermostFunction site = .ok (some function) →
      List.Forall₂ (u.storage.IsInitializer cx.tree.graph site function.name) function.locals block) :
    cx.Initialized w { u with
      code := u.code.append block site
      initialized := site :: u.initialized
      initializers := ⟨site, u.code.size, u.code.size + block.length⟩ :: u.initializers } := by
  have hmarked : u.Recorded cx.pass → State.Recorded cx.pass { u with initialized := site :: u.initialized } :=
    fun h => ⟨h.size, fun stack hstack outer hsite => List.mem_cons_of_mem _ (h.sites stack hstack outer hsite),
      fun hpass outer hsite => List.mem_cons_of_mem _ (h.current hpass outer hsite)⟩
  have hsize := h.recorded.size
  refine
    { h with
      recorded := ?_
      noted := by simp [h.noted]
      distinct := List.nodup_cons.2 ⟨hnew, h.distinct⟩
      sets := fun r hr => ?_
      others := fun {a i} ha => ?_
      landings := fun {target} htarget => ?_ }
  · exact recorded_of_eq (recorded_append (hmarked h.recorded) fun outer hsite => List.mem_cons.2 (houter outer hsite))
      rfl rfl rfl rfl
  · rcases List.mem_cons.1 hr with rfl | hr
    · -- Code inside the site would have made it known.
      have hnone (a : Nat) : ¬ u.code.IsWithin site a := by
        rintro ⟨stack, hstack, hprefix⟩
        exact hnew (h.recorded.sites stack (List.mem_of_getElem? hstack) site (CallStack.mem_sites.2 ⟨hne, hprefix⟩))
      exact { setsLocals_append hsize hnone hcalled hblock with }
    · exact { SetsLocals.append (h.sets r hr) hsize with }
  · rcases Bytecode.getElem?_append ha with hold | ⟨hle, hlt, -⟩
    · rcases h.others hold with ⟨r, hr, hin⟩ | hdefault
      · exact .inl ⟨r, List.mem_cons_of_mem _ hr, hin⟩
      · exact .inr hdefault
    · exact .inl ⟨_, List.mem_cons_self, hle, hlt⟩
  · rcases Bytecode.isLanding_append (by simp +contextual [hplain]) htarget with hold | ⟨i, hi, hforward, -⟩
    · obtain ⟨hle, hclear⟩ := h.landings hold
      rw [Bytecode.size_append]
      refine ⟨by omega, fun r hr => ?_⟩
      rcases List.mem_cons.1 hr with rfl | hr
      · exact .inl hle
      · exact hclear r hr
    · rw [hplain i hi] at hforward
      cases hforward

end Append

/-- A jump lands at the next instruction, behind all code that sets locals. -/
theorem Initialized.land (h : cx.Initialized w u) {a : Nat} {code : Bytecode}
    (hcode : u.code.setOffset a (u.code.size - a) = .ok code) : cx.Initialized w { u with code := code } := by
  obtain ⟨jump, j, hjump, hj, rfl⟩ := Bytecode.setOffset_eq_ok hcode
  have hsize : Bytecode.size { u.code with instructions := u.code.instructions.set a j } = u.code.size :=
    List.length_set
  have hlt : a < u.code.size := (List.getElem?_eq_some_iff.1 hjump).1
  refine
    { h with
      recorded := recorded_of_eq h.recorded rfl hsize rfl rfl
      sets := fun r hr => ?_
      others := fun {n i} hi => ?_
      landings := fun {target} htarget => ?_ }
  · refine (h.sets r hr).mono (Nat.le_of_eq hsize.symm) (fun _ _ => rfl) ?_ (.refl _)
    intro n source target hn
    have hne : n ≠ a := by
      rintro rfl
      cases hn.symm.trans hjump
      cases hj
    exact (List.getElem?_set_ne (Ne.symm hne)).trans hn
  · rcases eq_or_of_getElem?_set hi with ⟨rfl, rfl⟩ | ⟨-, hold⟩
    · rw [(Instruction.withOffset?_eq_some hj).1]
      exact h.others hjump
    · exact h.others hold
  · rw [hsize]
    rcases htarget with hentry | ⟨n, i, ⟨-, hi⟩, d, hd, rfl⟩
    · exact h.landings (.inl hentry)
    · rcases eq_or_of_getElem?_set hi with ⟨hn, rfl⟩ | ⟨-, hold⟩
      · have hdistance : d = u.code.size - a := by
          cases jump <;> simp only [Instruction.withOffset?, Option.some.injEq, reduceCtorEq] at hj <;>
            subst hj <;> simp [Instruction.forward?] at hd <;> exact hd.symm
        refine ⟨by omega, fun r hr => .inr ?_⟩
        have := (h.sets r hr).stop_le
        omega
      · exact h.landings (.inr ⟨n, i, ⟨Nat.zero_le _, hold⟩, d, hd, rfl⟩)

theorem Initialized.addEntry (h : cx.Initialized w u) (name : String) :
    cx.Initialized w { u with code := u.code.addEntry name u.code.size } := by
  refine
    { h with
      recorded := recorded_of_eq h.recorded rfl rfl rfl rfl
      sets := fun r hr => { h.sets r hr with }
      landings := fun {target} htarget => ?_ }
  rcases htarget with ⟨name', hentry⟩ | hforward
  · rcases SortedMap.mem_insert hentry with heq | hold
    · cases heq
      exact ⟨Nat.le_refl _, fun r hr => .inr (h.sets r hr).stop_le⟩
    · exact h.landings (.inl ⟨name', hold⟩)
  · exact h.landings (.inr hforward)

/-! ## Entering call sites -/

theorem append_append {b : Bytecode} {block : List Instruction} :
    (b.append block stack).push i (some stack) = b.append (block ++ [i]) stack := by
  simp [Bytecode.append, Bytecode.push, List.replicate_succ']

/-- One copy for each local, in order. -/
theorem ends_emitInitializers (hpass : cx.pass = .emit) (hrecord : cx.options.recordCallStacks = true)
    (hkept : cx.LocalsKept u.storage site) :
    Step.Ends (fun _ => True) u (cx.emitInitializers site) fun _ u' => ∃ block,
      (∀ i ∈ block, i.forward? = none) ∧
      (block = [] ∨ ∃ function, cx.tree.innermostFunction site = .ok (some function)) ∧
      (∀ function, cx.tree.innermostFunction site = .ok (some function) →
        List.Forall₂ (u.storage.IsInitializer cx.tree.graph site function.name) function.locals block) ∧
      u' = { u with code := u.code.append block site } := by
  have hempty : u.code = u.code.append [] site := by simp [Bytecode.append]
  rw [emitInitializers_eq]
  refine Step.ends_lift_bind fun r hfunction => ?_
  cases r with
  | none => exact ⟨[], by simp, .inl rfl, by simp [hfunction], by rw [← hempty]⟩
  | some function =>
    refine (Step.ends_forM (fun done u' => ∃ block, (∀ i ∈ block, i.forward? = none) ∧
      List.Forall₂ (u.storage.IsInitializer cx.tree.graph site function.name) done block ∧
      u' = { u with code := u.code.append block site }) ⟨[], by simp, .nil, by rw [← hempty]⟩ ?_).mono ?_
    · rintro done v rest hlocals _ ⟨block, hplain, hblock, rfl⟩
      obtain ⟨key, target, source, hkey, htarget, hsource⟩ := hkept function hfunction v (by simp [hlocals])
      unfold emitInitializer
      refine Step.ends_bind.2 (Step.ends_lift.2 ?_)
      rw [hkey]
      refine Checked.ends_ok.2 (Step.ends_get_bind.2 ?_)
      dsimp only
      rw [hsource, htarget]
      show Checked.Ends _ (cx.emitUnder site (.copy source target) _) _
      rw [emitUnder_apply hpass, hrecord]
      refine ⟨block ++ [.copy source target], ?_, ?_, ?_⟩
      · simpa [or_imp, forall_and, Instruction.forward?] using hplain
      · exact List.rel_append hblock (.cons ⟨key, source, target, hkey, hsource, htarget, rfl⟩ .nil)
      · rw [if_pos rfl, append_append]
    · rintro _ u' ⟨block, hplain, hblock, hu'⟩
      refine ⟨block, hplain, .inr ⟨function, hfunction⟩, fun function' hfunction' => ?_, hu'⟩
      cases hfunction.symm.trans hfunction'
      exact hblock

theorem still_of_stored (h : Stored u u') : u.Still u' := by
  rw [h.2]
  exact ⟨rfl, rfl, rfl, rfl, rfl, rfl, h.1⟩

section Entering

variable (hw : cx.Initializable w)

include hw

/-- A call site is initialized when code is emitted, if those around it are. -/
theorem Initializable.ends_initializeSite (h : cx.Initialized w u) (hne : site ≠ [])
    (hsite : cx.pass = .emit → site ∈ w.sites)
    (houter : cx.pass = .emit → ∀ outer ∈ site.sites, outer = site ∨ outer ∈ u.initialized) :
    Step.Ends (fun _ => True) u (cx.initializeSite site) fun _ u' => cx.Initialized w u' ∧
      u.initialized ⊆ u'.initialized ∧ (cx.pass = .emit → site ∈ u'.initialized) := by
  unfold initializeSite
  refine Step.ends_get_bind.2 ?_
  cases hpass : cx.pass with
  | setup =>
    dsimp only
    split
    · exact ⟨h, List.Subset.refl _, by simp⟩
    · refine Step.ends_bind.2 (Step.ends_set.2 (stored_prepareLocals.mono fun _ u' hu' => ?_))
      have hmark : u.Still { u with prepared := site :: u.prepared } := { State.Still.refl u with }
      have hstill := hmark.trans (still_of_stored hu')
      exact ⟨h.still hstill, by rw [hstill.initialized]; exact List.Subset.refl _, by simp⟩
  | emit =>
    dsimp only
    by_cases hmem : site ∈ u.initialized
    · rw [if_pos hmem]
      exact ⟨h, List.Subset.refl _, fun _ => hmem⟩
    · rw [if_neg hmem]
      refine Step.ends_bind.2 (Step.ends_set.2 ?_)
      rw [hasInstructionsWithin_eq_false h.recorded hne hmem, Bool.and_false]
      have hkept := h.kept site (hsite hpass)
      refine Step.ends_bind.2
        ((ends_emitInitializers (u := { u with initialized := site :: u.initialized }) hpass hw.record hkept).mono ?_)
      rintro _ _ ⟨block, hplain, hcalled, hblock, rfl⟩
      refine Step.ends_modify.2 ⟨?_, List.subset_cons_self _ _, fun _ => List.mem_cons_self⟩
      have hset := h.initialize hne hmem (houter hpass) hplain hcalled hblock
      rw [← @Bytecode.size_append _ _ site] at hset
      exact hset

theorem Initializable.ends_initializeLocals (h : cx.Initialized w u)
    (hsites : cx.pass = .emit → ∀ site ∈ stack.sites, site ∈ w.sites) :
    Step.Ends (fun _ => True) u (cx.initializeLocals stack) fun _ u' => cx.Initialized w u' ∧
      (cx.pass = .emit → ∀ site ∈ stack.sites, site ∈ u'.initialized) := by
  refine Step.ends_forM (fun done u' => cx.Initialized w u' ∧
    (cx.pass = .emit → ∀ site ∈ done, site ∈ u'.initialized)) ⟨h, by simp⟩ ?_
  rintro done site rest hstack u1 ⟨h1, hdone⟩
  have hsite : site ∈ stack.sites := by simp [hstack]
  refine (hw.ends_initializeSite h1 (CallStack.mem_sites.1 hsite).1 (fun hpass => hsites hpass site hsite) ?_).mono ?_
  · intro hpass outer houter
    rcases List.mem_append.1 (CallStack.mem_of_mem_sites hstack houter) with hmem | hmem
    · exact .inr (hdone hpass outer hmem)
    · exact .inl (List.mem_singleton.1 hmem)
  · rintro _ u2 ⟨h2, hsub, hnew⟩
    refine ⟨h2, fun hpass site' hmem => ?_⟩
    rcases List.mem_append.1 hmem with hmem | hmem
    · exact hsub (hdone hpass site' hmem)
    · rw [List.mem_singleton.1 hmem]
      exact hnew hpass

theorem Initializable.ends_enter (h : cx.Initialized w u)
    (hsites : cx.pass = .emit → ∀ site ∈ stack.sites, site ∈ w.sites) :
    Step.Ends (fun _ => True) u (cx.enter stack) fun _ u' => cx.Initialized w u' := by
  unfold enter enterFrames
  refine Step.ends_bind.2 (Step.ends_get_bind.2 (Step.ends_lift_bind fun entered _ => ?_))
  refine Step.ends_set.2 (Step.ends_bind.2 ?_)
  have hframes : cx.Initialized w { u with frames := u.frames.take (commonFrames u.frames stack) ++ entered } :=
    h.still { State.Still.refl u with }
  refine (hw.ends_initializeLocals hframes hsites).mono ?_
  rintro _ u1 ⟨h1, hcurrent⟩
  refine Step.ends_modify.2 { h1 with recorded := ?_, sites := hsites, sets := fun r hr => { h1.sets r hr with } }
  exact ⟨h1.recorded.size, h1.recorded.sites, hcurrent⟩

end Entering

/-! ## Other operands are no defaults -/

section Operands

variable (hw : cx.Initializable w) {o : Operand} {key : String} {p : Proxy} {site : Site}

include hw

theorem Initializable.noDefault_of_key (ho : w.final.keyed.lookup key = some o)
    (hkey : cx.tree.graph.PlainNames → stem key ≠ "Function".toList) : cx.NoDefault w o := by
  rintro hg ⟨function, name, hdefault⟩
  apply hkey hg
  rw [(hw.named ho).key_eq (hw.named hdefault) rfl rfl, stem_localDefaultKey]

theorem Initializable.noDefault_external {index : Nat} : cx.NoDefault w { memory := .external, index } := by
  rintro - ⟨function, name, hdefault⟩
  obtain ⟨-, table, r, ht, -⟩ := hw.named hdefault
  cases ht

theorem Initializable.noDefault_path {path : String} (suffix : String) (hp : p.pin?.isSome = true)
    (hpath : p.path cx.tree.graph = .ok path) (ho : w.final.keyed.lookup (path ++ suffix) = some o) :
    cx.NoDefault w o := by
  refine hw.noDefault_of_key ho fun hg hstem => ?_
  have hdot := dot_mem_stem_path hg.bare hp hpath suffix
  rw [hstem] at hdot
  revert hdot
  decide

theorem Initializable.noDefault_constant (hsite : cx.constantSite p = .ok (some site))
    (ho : site.Holds w.final o) : cx.NoDefault w o := by
  obtain ⟨path, suffix, hp, hpath, -, rfl⟩ := constantSite_cases hsite
  exact hw.noDefault_path suffix hp hpath ho

theorem Initializable.noDefault_holds (ho : site.Holds w.final o)
    (hsite : ∀ key, site = .register key → w.final.keyed.lookup key = some o → cx.NoDefault w o) :
    cx.NoDefault w o := by
  cases site with
  | register key => exact hsite key rfl ho
  | external index =>
    have ho : o = { memory := .external, index } := ho
    rw [ho]
    exact hw.noDefault_external

theorem Initializable.noDefault_root (hp : p.pin?.isSome = true) (hsite : cx.rootSite p = .ok (some site))
    (ho : site.Holds w.final o) : cx.NoDefault w o := by
  refine hw.noDefault_holds ho ?_
  rintro key rfl ho
  rcases rootSite_cases hsite with ⟨member, -, hsite⟩ | ⟨-, path, hpath, hkey⟩
  · refine hw.noDefault_of_key ho fun hg => ?_
    rcases variableSite_register hsite with ⟨name, rfl⟩ | ⟨callSite, name, hkey⟩
    · rw [stem_eq "Parameter".toList (':' :: name.toList) (by simp) (by decide)]
      decide
    · exact stem_localKey_ne hg.bare hkey _ (by decide)
  · cases hkey
    refine hw.noDefault_path "" (Sharing.isSome_pin?_representative hw.sharing hp) hpath ?_
    simpa using ho

theorem Initializable.noDefault_located (ho : cx.Located w.final p o) : cx.NoDefault w o := by
  obtain ⟨id, root, segments, hid, -, -, site, base, hsite, hbase, ho⟩ := ho
  split at ho
  · subst ho
    exact hw.noDefault_root (by simp [Proxy.withPin, Proxy.pin?]) hsite hbase
  · -- A member is no whole register.
    rintro - ⟨function, name, hdefault⟩
    obtain ⟨table, k, -, -, rfl⟩ := ho
    cases (hw.named hdefault).1

theorem Initializable.noDefault_label {n : Nat} (ho : w.final.keyed.lookup s!"Const::int32::{n}" = some o) :
    cx.NoDefault w o := by
  refine hw.noDefault_of_key ho fun _ => ?_
  rw [stem_eq "Const".toList (":int32::".toList ++ (toString n).toList) (by rw [toList_labelKey]; rfl) (by decide)]
  decide

theorem Initializable.noDefault_scratch (ho : w.final.keyed.lookup "Scratch::Compare" = some o) :
    cx.NoDefault w o := by
  refine hw.noDefault_of_key ho fun _ => ?_
  rw [stem_eq "Scratch".toList ":Compare".toList rfl (by decide)]
  decide

end Operands

/-! ## The whole walk -/

theorem initialized_empty (hsites : w.sites = []) : cx.Initialized w {} where
  recorded := ⟨rfl, by simp, by simp [CallStack.sites]⟩
  known := by simp
  operands := by simp
  sites := by simp [CallStack.sites]
  kept := by simp [hsites]
  noted := rfl
  distinct := List.nodup_nil
  sets := by simp
  others := by simp
  landings := by
    rintro target (⟨name, hname⟩ | ⟨a, i, ⟨-, hi⟩, -⟩)
    · cases hname
    · cases hi

/-- A pass starts with what the one before has set. -/
theorem Initialized.restarted (h : cx.Initialized w u) (pass : Pass) {sites : List CallStack} (known : ExprId → Prop)
    (hkept : ∀ site ∈ sites, cx.LocalsKept u.storage site) :
    Context.Initialized { cx with pass := pass } ⟨sites, known, w.final⟩ u.restarted :=
  { h with
    recorded := ⟨h.recorded.size, h.recorded.sites, by simp [State.restarted, CallStack.sites]⟩
    known := by simp [State.restarted]
    sites := by simp [State.restarted, CallStack.sites]
    kept := hkept
    sets := fun r hr => { h.sets r hr with } }

/-- The invariant of the walk. -/
def initializing (cx : Context) (w : Outlook) : Invariant where
  holds := cx.Initialized w
  sound := cx.NoDefault w
  known := w.known
  final := w.final

theorem Initializable.kept (hw : cx.Initializable w) : (cx.initializing w).Kept cx where
  known_child := hw.child
  still hstill h := h.still hstill
  visit {u e} hknown h :=
    { h with
      recorded := recorded_of_eq h.recorded rfl rfl rfl rfl
      known := List.forall_mem_cons.2 ⟨hknown, h.known⟩
      sets := fun r hr => { h.sets r hr with } }
  enter {u e x} hknown hx h := by
    refine hw.ends_enter h fun hpass => ?_
    cases hp : x.proxy with
    | none => exact h.sites hpass
    | some p => exact hw.sites hpass hknown hx hp
  leave {u u'} h hext h' :=
    { h' with
      recorded := ⟨h'.recorded.size, h'.recorded.sites, fun hpass site hsite =>
        hext.initialized (h.recorded.current hpass site hsite)⟩
      sites := h.sites
      sets := fun r hr => { h'.sets r hr with } }
  emit {u i} hpass h hsound hforward := by
    rw [hw.record]
    exact Initialized.emit h hpass hsound hforward
  land h hcode := Initialized.land h hcode
  addEntry name h := Initialized.addEntry h name
  lookup h ho := h.operands ho
  remember {u e o} h ho :=
    { h with
      recorded := recorded_of_eq h.recorded rfl rfl rfl rfl
      operands := fun {e' o'} ho' => by
        rw [State.remember, List.lookup_cons] at ho'
        split at ho'
        · cases ho'
          exact ho
        · exact h.operands ho'
      sets := fun r hr => { h.sets r hr with } }
  constant := hw.noDefault_constant
  external hsite ho := hw.noDefault_holds ho fun key hkey _ => (externalSite_not_register (hkey ▸ hsite)).elim
  value := hw.noDefault_located
  label := hw.noDefault_label
  scratch := hw.noDefault_scratch

end Context
end Lowering

namespace Tree

open Lowering

variable {t : Tree} {env : Environment} {options : CompileOptions} {sharing : Sharing}
  {s checked prepared : State}

/-- Lowering without an error ends with the locals of all call sites set by code of their own. -/
theorem Passes.initialized (h : t.Passes env options sharing checked prepared s)
    (hsharing : sharing.ExistsIn t.graph) (hrecord : options.recordCallStacks = true)
    (hfailed : s.failed = []) (herrors : s.report.errors = 0) :
    Context.Initialized ⟨t, env, options, sharing, .emit⟩ ⟨prepared.prepared, prepared.Met, s.storage⟩ s := by
  have hprepared : prepared.failed = [] := List.subset_nil.1 (hfailed ▸ h.emit.failed)
  -- No code is there before the passes, and the setup pass emits none.
  have hempty : Context.Initialized ⟨t, env, options, sharing, .setup⟩ ⟨[], fun _ => True, s.storage⟩ {} :=
    Context.initialized_empty rfl
  have hstored := Checked.Ends.of_ok Context.stored_checkWatches h.checks
  have hchecked := (hempty.still (Context.still_of_stored hstored)).restarted .setup (fun _ => True)
    (fun _ hsite => nomatch (List.not_mem_nil hsite))
  have hsetup : Context.Initializable ⟨t, env, options, sharing, .setup⟩ ⟨[], fun _ => True, s.storage⟩ :=
    ⟨hrecord, hsharing, h.named, fun _ _ _ _ => trivial, nofun⟩
  have hbetween := hsetup.kept.holds_of_lowerRoots (fun _ _ => trivial) hchecked h.prepares h.emit.storage hprepared
  have hemit : Context.Initializable ⟨t, env, options, sharing, .emit⟩
      ⟨prepared.prepared, prepared.Met, s.storage⟩ :=
    { record := hrecord
      sharing := hsharing
      named := h.named
      child := fun he hx hkind hc => (h.covered hprepared he).1 _ hx hkind _ hc
      sites := fun _ _ _ _ he hx hp => (h.covered hprepared he).2 _ _ hx hp }
  have hstart := hbetween.restarted .emit prepared.Met fun _ hsite => h.kept herrors hsite
  exact hemit.kept.holds_of_lowerRoots h.met hstart h.emits (.refl _) hfailed

end Tree
end NodeGraph
