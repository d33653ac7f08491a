import NodeGraph.Proofs.Lowering.Account
import NodeGraph.Proofs.Lowering.CoupledWalk

/-!
# What setup finds

Both passes ask for operands in the same way, and asking makes registers, property paths and names of pins
that are not there yet. So the second pass adds nothing if the first one has asked for the same operands.
To ask again for an operand that was found changes nothing (`Repeated`), also when the storage has grown.
If setup does not give up an expression, it has found all operands that the lowering of it asks for (`Settled`),
and a pass leaves every expression that it met so (`provided_of_lowerRoots`).
-/
namespace NodeGraph

namespace Lowering

/-! ## Asking again -/

variable {cx : Context} {s s' s'' : State} {o : Operand} {function : String} {e : ExprId}

namespace Storage

variable {a : Storage}

theorem setTable_self {space : MemorySpace} {table : MemoryTable} (h : a.table? space = some table) :
    a.setTable space table = a := by
  cases space <;> cases h <;> rfl

/-- A member that is there is not added again. -/
theorem addPath_of_member {base : Operand} {segments : String} (h : a.Member base segments o) :
    a.addPath base segments = some (a, o) := by
  obtain ⟨table, k, htable, hk, rfl⟩ := h
  have hintern : table.internPath base.index segments = (table, k) := by
    unfold MemoryTable.internPath
    dsimp only
    rw [hk]
  refine addPath_eq_some.2 ⟨table, htable, ?_, ?_⟩
  · rw [hintern]
  · rw [hintern, setTable_self htable]

end Storage

section Repeated

variable {α β : Type} {m : Attempt α} {k : α → Attempt β} {x : α} {y : β} {a b : Storage} {key : String}
  {p : Proxy} {space : MemorySpace}

/-- Where there is all that is in `a`, the attempt has this result and changes nothing. -/
def Repeated (m : Attempt α) (x : α) (a : Storage) : Prop :=
  ∀ s : State, a.Extends s.storage →
    Attempt.Ends (fun _ => True) s m (fun x' s' => x' = x ∧ s' = s) fun _ _ => False

theorem Repeated.mono (h : Repeated m x a) (hle : a.Extends b) : Repeated m x b := fun s hs => h s (hle.trans hs)

theorem repeated_pure : Repeated (pure x) x a := fun _ _ => ⟨rfl, rfl⟩

theorem Repeated.bind (hm : Repeated m x a) (hk : Repeated (k x) y a) : Repeated (m >>= k) y a := by
  intro s hs
  refine Attempt.ends_bind.2 ((hm s hs).mono ?_ fun _ _ h => h)
  rintro _ _ ⟨rfl, rfl⟩
  exact hk _ hs

theorem Repeated.lift_bind {r : Checked α} (hr : r = .ok x) (hk : Repeated (k x) y a) :
    Repeated (liftM r >>= k) y a := by
  rw [hr]
  exact hk

theorem repeated_allocateWith {pin : Option PinId} {build : Typed Register} (h : a.keyed.lookup key = some o) :
    Repeated (allocateWith key space pin build) o a := by
  intro s hs
  refine Attempt.ends_get_bind.2 ?_
  rw [hs.keyed h]
  exact ⟨rfl, rfl⟩

theorem repeated_allocate {spec : RegisterSpec} (h : a.keyed.lookup key = some o) :
    Repeated (cx.allocate key space spec) o a :=
  repeated_allocateWith h

/-- The shape of a pin depends on the call site, but it does not matter for a register that is there. -/
theorem repeated_allocateFor (h : a.keyed.lookup key = some o) : Repeated (cx.allocateFor key space p) o a := by
  intro s hs
  refine Attempt.ends_get_bind.2 ?_
  cases pinSpec cx.tree.graph s.frames p with
  | error f => trivial
  | ok spec => exact repeated_allocate h s hs

theorem repeated_localOperand {callSite : CallStack} {v : LocalVariable} {source : Operand}
    (hkey : localKey cx.tree.graph callSite v.name = .ok key) (ho : a.keyed.lookup key = some o)
    (hsource : a.keyed.lookup (localDefaultKey function v.name) = some source) :
    Repeated (cx.localOperand callSite function v) o a :=
  (repeated_allocate hsource).bind (.lift_bind hkey (repeated_allocate ho))

end Repeated

/-! ## Finding for good -/

namespace Context

variable {α β : Type} {m : Attempt α} {k : α → Attempt β} {p : Proxy}

/-- An attempt finds something, and finds it again ever after. -/
def Recalls (cx : Context) (m : Attempt α) : Prop := cx.Finds m fun a x => Repeated m x a

theorem recalls_lift_bind {r : Checked α} (h : ∀ x, r = .ok x → cx.Recalls (k x)) : cx.Recalls (liftM r >>= k) := by
  cases r with
  | ok x => exact h x rfl
  | error f => exact ⟨fun _ _ => rfl, fun _ => trivial⟩

theorem Recalls.bind (hm : cx.Recalls m) (hk : ∀ x, cx.Recalls (k x)) : cx.Recalls (m >>= k) := by
  refine (Finds.bind hm hk Repeated.mono).mono ?_
  rintro a y ⟨x, hx, hy⟩
  exact hx.bind hy

theorem recalls_caseLabel (n : Nat) : cx.Recalls (cx.caseLabel n) :=
  (finds_caseLabel n).mono fun h => repeated_allocate h

theorem recalls_comparisonScratch : cx.Recalls cx.comparisonScratch :=
  finds_comparisonScratch.mono fun h => repeated_allocate h

theorem recalls_variableOperand : cx.Recalls (cx.variableOperand p) := by
  unfold variableOperand
  dsimp only
  cases hid : p.pin? with
  | none => exact finds_throw
  | some id =>
    refine recalls_lift_bind fun pin hpin => recalls_lift_bind fun node hnode => ?_
    split
    · next name _ hkind =>
      have hon := Proxy.isOn_of_ok hid hpin hnode
      rw [hkind] at hon
      exact (finds_allocateFor (.parameter name _ hon)).mono repeated_allocateFor
    · refine recalls_lift_bind fun r hr => ?_
      cases r with
      | some access =>
        refine (finds_localOperand (Tree.declaresAt_of_findLocal hr)).mono ?_
        rintro a o ⟨key, source, hkey, ho, hsource⟩
        exact repeated_localOperand hkey ho hsource
      | none =>
        dsimp only
        split
        · exact finds_pure fun _ => repeated_pure
        · exact finds_throw
    · exact finds_throw

theorem recalls_rootOperand (hp : p.IsRoot cx.tree.graph) : cx.Recalls (cx.rootOperand p) := by
  unfold rootOperand
  dsimp only
  refine recalls_lift_bind fun r hr => ?_
  cases r with
  | some member => exact recalls_variableOperand
  | none =>
    refine recalls_lift_bind fun path hpath => ?_
    exact (finds_allocateFor (.value _ hp hr hpath)).mono repeated_allocateFor

theorem recalls_valueOperand : cx.Recalls (cx.valueOperand p) := by
  unfold valueOperand
  dsimp only
  cases hid : p.pin? with
  | none => exact finds_throw
  | some id =>
    refine recalls_lift_bind fun pin hpin => ?_
    split
    · next hroot => exact recalls_rootOperand ⟨id, pin, hid, Graph.pin_eq_ok.1 hpin, hroot⟩
    · refine recalls_lift_bind fun root hroot => ?_
      refine Recalls.bind (recalls_rootOperand (Proxy.isRoot_withPin hroot)) fun base => finds_member.mono ?_
      rintro a o ⟨segments, hsegments, ho⟩ s hs
      refine Attempt.ends_get_bind.2 (Attempt.ends_bind.2 (Attempt.ends_lift.2 ?_))
      rw [hsegments, Checked.ends_ok, Storage.addPath_of_member (ho.mono hs)]
      exact ⟨rfl, rfl⟩

end Context

/-! ## What stays -/

namespace State

/-- The operand of an expression was found. -/
def Knows (s : State) (c : ExprId) : Prop := ∃ o, s.operands.lookup c = some o

theorem knows_remember {c c' : ExprId} : (s.remember c' o).Knows c ↔ s.Knows c ∨ c = c' := by
  unfold Knows remember
  rw [List.lookup_cons]
  split
  · next heq => exact ⟨fun _ => .inr (eq_of_beq heq), fun _ => ⟨o, rfl⟩⟩
  · next hne => simp [beq_eq_false_iff_ne.1 hne]

/-- What was found stays found, and what was met stays met. -/
structure Remembers (s s' : State) : Prop where
  storage : s.storage.Extends s'.storage
  operands : ∀ {c}, s.Knows c → s'.Knows c
  visited : s.visited ⊆ s'.visited
  failed : s.failed ⊆ s'.failed

theorem Remembers.refl (s : State) : s.Remembers s := ⟨.refl _, fun h => h, fun _ h => h, fun _ h => h⟩

theorem Remembers.trans (h : s.Remembers s') (h' : s'.Remembers s'') : s.Remembers s'' where
  storage := h.storage.trans h'.storage
  operands hc := h'.operands (h.operands hc)
  visited := List.Subset.trans h.visited h'.visited
  failed := List.Subset.trans h.failed h'.failed

theorem Remembers.met (h : s.Remembers s') (he : s.Met e) : s'.Met e :=
  he.imp (h.visited ·) (h.failed ·)

end State

/-- The walk remembers what it found. -/
def remembering : Account where
  moves _ _ s s' := s.Remembers s'
  lowers c s s' := s.Remembers s' ∧ s'.Met c

theorem remembering_stores : remembering.Stores where
  storage {_ s _} h _ := { State.Remembers.refl s with storage := h }
  remember _ h := { h with operands := fun hc => State.knows_remember.2 (.inl (h.operands hc)) }
  publish _ s _ _ := { State.Remembers.refl s with }
  mirror _ s _ := { State.Remembers.refl s with }

theorem remembering_lawful (cx : Context) : remembering.Lawful cx := by
  have hruled : remembering.Ruled cx :=
    { refl := fun _ s => .refl s
      trans := fun h h' => State.Remembers.trans h h'
      once := fun _ _ _ _ h _ =>
        ⟨{ h with visited := fun _ hy => h.visited (List.mem_cons_of_mem _ hy) },
          .inl (h.visited (List.mem_cons_self ..))⟩
      skip := fun {_ s} _ _ hmet => ⟨.refl s, hmet.symm⟩
      of_lowers := fun h => h.1
      aside := fun {_ s s'} hs => by
        rw [hs]
        exact { State.Remembers.refl s with }
      error := fun _ s _ _ _ => { State.Remembers.refl s with }
      warning := fun _ s _ _ => { State.Remembers.refl s with }
      failed := fun _ s => { State.Remembers.refl s with failed := fun _ hy => List.mem_cons_of_mem _ hy }
      push := fun {_ s _ _} _ _ _ => { State.Remembers.refl s with }
      land := fun {_ s _ _} _ _ => { State.Remembers.refl s with } }
  exact hruled.lawful remembering_stores fun he hkind hlower =>
    hruled.pays_lowerEntry he hlower (fun s _ => { State.Remembers.refl s with }) hkind

/-! ## What success secures -/

section Secures

variable {α β : Type} {m : Attempt α} {k : α → Attempt β} {P Q : State → Prop} {l : List α}

/-- If the attempt succeeds, something is true from then on. -/
def Secures (m : Attempt α) (P : State → Prop) : Prop :=
  ∀ s, Attempt.Ends (fun _ => True) s m (fun _ s' => s.Remembers s' ∧ ∀ later, s'.Remembers later → P later)
    fun _ s' => s.Remembers s'

theorem Secures.mono (h : Secures m P) (hpq : ∀ s, P s → Q s) : Secures m Q := fun s =>
  (h s).mono (fun _ _ h1 => ⟨h1.1, fun later h2 => hpq later (h1.2 later h2)⟩) fun _ _ h1 => h1

theorem secures_pure {x : α} (h : ∀ s, P s) : Secures (pure x) P := fun s => ⟨.refl s, fun later _ => h later⟩

theorem secures_throw {error : LowerError} : Secures (throw error : Attempt α) P := fun s => .refl s

theorem secures_lift_bind {r : Checked α} (h : ∀ x, r = .ok x → Secures (k x) P) : Secures (liftM r >>= k) P := by
  cases r with
  | ok x => exact h x rfl
  | error f => exact fun _ => trivial

theorem Secures.bind (hm : Secures m P) (hk : ∀ x, Secures (k x) Q) : Secures (m >>= k) fun s => P s ∧ Q s := by
  intro s
  refine Attempt.ends_bind.2 ((hm s).mono (fun x s1 h1 => ?_) fun _ _ h1 => h1)
  refine (hk x s1).mono (fun _ s2 h2 => ⟨h1.1.trans h2.1, fun later h3 => ?_⟩) fun _ _ h2 => h1.1.trans h2
  exact ⟨h1.2 later (h2.1.trans h3), h2.2 later h3⟩

theorem secures_of_tries (h : remembering.Tries e 0 m) : Secures m fun _ => True := fun s =>
  (h s trivial).mono (fun _ _ h1 => ⟨h1, fun _ _ => trivial⟩) fun _ _ h1 => h1.1

theorem Secures.before (hm : Secures m P) (hk : ∀ x, remembering.Tries e 0 (k x)) : Secures (m >>= k) P :=
  (hm.bind fun x => secures_of_tries (hk x)).mono fun _ h => h.1

theorem Secures.map {f : α → β} (hm : Secures m P) : Secures (m >>= fun x => pure (f x)) P :=
  hm.before (e := 0) fun _ s _ => State.Remembers.refl s

theorem Secures.after (hm : remembering.Tries e 0 m) (hk : ∀ x, Secures (k x) P) : Secures (m >>= k) P :=
  ((secures_of_tries hm).bind hk).mono fun _ h => h.2

theorem secures_forM {f : α → Attempt PUnit} {P : α → State → Prop} (hf : ∀ r ∈ l, Secures (f r) (P r)) :
    Secures (l.forM f) fun s => ∀ r ∈ l, P r s := by
  induction l with
  | nil => exact secures_pure fun _ _ hr => nomatch hr
  | cons a l ih =>
    have hrest := ih fun r hr => hf r (List.mem_cons_of_mem _ hr)
    exact ((hf a (List.mem_cons_self ..)).bind fun _ => hrest).mono fun s h => List.forall_mem_cons.2 h

theorem secures_mapM {P : α → State → Prop} (hk : ∀ r ∈ l, Secures (k r) (P r)) :
    Secures (l.mapM k) fun s => ∀ r ∈ l, P r s := by
  induction l with
  | nil => exact secures_pure fun _ _ hr => nomatch hr
  | cons a l ih =>
    rw [List.mapM_cons]
    have hrest := ih fun r hr => hk r (List.mem_cons_of_mem _ hr)
    exact ((hk a (List.mem_cons_self ..)).bind fun _ => hrest.map).mono fun s h => List.forall_mem_cons.2 h

end Secures

/-! ## Operands that were asked for -/

namespace Context

variable {α : Type} {c : ExprId} {pin : String} {P : State → Prop} {lower : ExprId → Step Unit}

theorem secures_recalls {m : Attempt α} (h : cx.Recalls m) : Secures m fun s => ∃ x, Repeated m x s.storage := by
  intro s
  have hstored {s' : State} (h1 : cx.Enlarges s.storage s'.storage ∧ s' = { s with storage := s'.storage }) :
      s.Remembers s' := by
    rw [h1.2]
    exact { State.Remembers.refl s with storage := h1.1.keeps }
  refine (Finds.ends h s).mono (fun x s1 h1 => ⟨hstored h1.1, fun later h2 => ?_⟩) fun _ _ h1 => hstored h1
  exact ⟨x, h1.2.mono h2.storage⟩

/-- To ask for an operand is to ask for a memoized one. -/
theorem ends_operandOf {Q : Operand → State → Prop} {E : LowerError → State → Prop}
    (h : ∀ find, Attempt.Ends (fun _ => True) s (memoized c find) Q E) :
    Attempt.Ends (fun _ => True) s (cx.operandOf c) Q E := by
  refine Attempt.ends_lift_bind fun kind _ => ?_
  split
  · exact h _
  · refine Attempt.ends_lift_bind fun x _ => ?_
    exact h _

theorem tries_operandOf_remembering : remembering.Tries e 0 (cx.operandOf c) :=
  remembering_stores.tries_operandOf (remembering_lawful cx).toGraded

theorem secures_operandOf : Secures (cx.operandOf c) (·.Knows c) := by
  intro s
  have hremembers : remembering.Tries c 0 (cx.operandOf c) := tries_operandOf_remembering
  have hknows : Attempt.Ends (fun _ => True) s (cx.operandOf c) (fun _ s' => s'.Knows c) fun _ _ => True := by
    refine ends_operandOf fun find => Attempt.ends_get_bind.2 ?_
    cases hlookup : s.operands.lookup c with
    | some o => exact ⟨o, hlookup⟩
    | none =>
      dsimp only
      split
      · trivial
      · refine Attempt.ends_bind.2 (Attempt.ends_true.mono (fun _ _ _ => ?_) fun _ _ h => h)
        exact State.knows_remember.2 (.inr rfl)
  exact ((hremembers s trivial).and hknows).mono (fun _ s1 h1 => ⟨h1.1, fun later h2 => h2.operands h1.2⟩)
    fun _ _ h1 => h1.1

/-- To ask for an operand that was found, or never will be, changes nothing. -/
theorem ends_operandOf_known (h : s.Knows c ∨ c ∈ s.failed) :
    Attempt.Ends (fun _ => True) s (cx.operandOf c) (fun _ s' => s' = s) fun _ s' => s' = s := by
  refine ends_operandOf fun find => Attempt.ends_get_bind.2 ?_
  cases hlookup : s.operands.lookup c with
  | some o => exact rfl
  | none =>
    have hfailed : c ∈ s.failed := h.resolve_left fun ⟨o, ho⟩ => by simp [hlookup] at ho
    dsimp only
    rw [if_pos hfailed]
    exact rfl

/-- The operand of the child that stands for a pin was found. -/
def KnowsPin (cx : Context) (s : State) (e : ExprId) (pin : String) : Prop :=
  ∀ c, cx.tree.varForPin e pin = .ok (some c) → s.Knows c

theorem secures_requiredVar_bind {f : ExprId → Attempt α}
    (hf : ∀ var, cx.tree.varForPin e pin = .ok (some var) → Secures (f var) P) :
    Secures (cx.requiredVar e pin >>= f) P := by
  unfold requiredVar
  rw [bind_assoc]
  refine secures_lift_bind fun r hr => ?_
  cases r with
  | none =>
    dsimp only
    rw [bind_assoc]
    exact secures_lift_bind fun _ _ => secures_throw
  | some var => exact hf var hr

theorem knowsPin_of_knows (hvar : cx.tree.varForPin e pin = .ok (some c)) (h : s.Knows c) : cx.KnowsPin s e pin := by
  intro c' hc'
  rw [hvar] at hc'
  cases hc'
  exact h

theorem secures_pinOperand : Secures (cx.pinOperand e pin) (cx.KnowsPin · e pin) :=
  secures_requiredVar_bind fun _ hvar => secures_operandOf.mono fun _ h => knowsPin_of_knows hvar h

theorem secures_callOperands :
    Secures (cx.callOperands e function) fun s => ∀ pin ∈ cx.parameterPins function, cx.KnowsPin s e pin := by
  unfold callOperands parameterPins
  cases cx.env.catalog.find? function with
  | none => exact secures_throw
  | some found =>
    refine (secures_mapM fun parameter _ => secures_pinOperand).map.mono fun s h pin hpin => ?_
    obtain ⟨parameter, hparameter, rfl⟩ := List.mem_map.1 hpin
    exact h parameter hparameter

/-! ## Setup settles -/

/-- All operands that the lowering of an expression asks for were found. -/
structure Settled (cx : Context) (s : State) (e : ExprId) : Prop where
  operand : ∀ {c}, cx.Asks e c → s.Knows c
  value : ∀ {p}, cx.AsksPin e p → ∃ o, Repeated (cx.valueOperand p) o s.storage
  label : ∀ {n}, cx.AsksLabel e n → ∃ o, Repeated (cx.caseLabel n) o s.storage
  scratch : ∀ {n}, cx.AsksLabel e n → ∃ o, Repeated cx.comparisonScratch o s.storage

theorem Settled.mono (h : cx.Settled s e) (hle : s.Remembers s') : cx.Settled s' e where
  operand hc := hle.operands (h.operand hc)
  value hp := (h.value hp).imp fun _ ho => ho.mono hle.storage
  label hn := (h.label hn).imp fun _ ho => ho.mono hle.storage
  scratch hn := (h.scratch hn).imp fun _ ho => ho.mono hle.storage

/-- Most kinds ask only for the operands of pins. -/
def asksOnlyPins (kind : ExprKind) : Bool :=
  !kind.isValue && !kind.isTransfer && kind ≠ .cachedValue && kind ≠ .select

theorem isValue_of_isTransfer {kind : ExprKind} (h : kind.isTransfer = true) : kind.isValue = false := by
  cases kind <;> first | rfl | cases h

section Kinds

variable {kind : ExprKind} (hkind : cx.tree.kind e = .ok kind) {pins : List String}

include hkind

/-- What has to be found for an expression of a kind. -/
theorem settled_of_kind (hasked : cx.askedPins e = .ok pins) (hpins : ∀ pin ∈ pins, cx.KnowsPin s e pin)
    (hvalue : kind.isValue = true → ∀ pin, cx.tree.pinOf e = .ok pin → pin.any Pin.isExecute = false → s.Knows e)
    (hcached : kind = .cachedValue → s.Knows e)
    (hselect : kind = .select → ∀ cases, cx.tree.subPinValues e PinName.values = .ok cases →
      (∀ c ∈ cases, s.Knows c) ∧ ∀ n, 0 < n → n < cases.length →
        (∃ o, Repeated (cx.caseLabel n) o s.storage) ∧ ∃ o, Repeated cx.comparisonScratch o s.storage)
    (htransfer : kind.isTransfer = true → ∀ x source target, cx.Transfers e x source target →
      (∃ o, Repeated (cx.valueOperand target) o s.storage) ∧
      ∀ r, x.children.findM? (m := Checked) cx.holdsValue = .ok r →
        r.elim (∃ o, Repeated (cx.valueOperand source) o s.storage) s.Knows) : cx.Settled s e := by
  have htransfers {x : Expression} {source target : Proxy} (hmoves : cx.Transfers e x source target) :
      kind.isTransfer = true := by
    have heq := Tree.kind_eq hmoves.expr
    rw [hkind] at heq
    cases heq
    exact hmoves.kind
  constructor
  · intro c hc
    cases hc with
    | value _ hk hv hpin hexecute =>
      rw [hkind] at hk
      cases hk
      exact hvalue hv _ hpin hexecute
    | cached hk =>
      rw [hkind] at hk
      cases hk
      exact hcached rfl
    | pin hasked' hpin hvar =>
      rw [hasked] at hasked'
      cases hasked'
      exact hpins _ hpin _ hvar
    | case hk hcases hc =>
      rw [hkind] at hk
      cases hk
      exact (hselect rfl _ hcases).1 c hc
    | source hmoves hfind => exact (htransfer (htransfers hmoves) _ _ _ hmoves).2 _ hfind
  · intro p hp
    cases hp with
    | target hmoves => exact (htransfer (htransfers hmoves) _ _ _ hmoves).1
    | source hmoves hfind => exact (htransfer (htransfers hmoves) _ _ _ hmoves).2 _ hfind
  · rintro n ⟨cases, hk, hcases, hpos, hlt⟩
    rw [hkind] at hk
    cases hk
    exact ((hselect rfl _ hcases).2 n hpos hlt).1
  · rintro n ⟨cases, hk, hcases, hpos, hlt⟩
    rw [hkind] at hk
    cases hk
    exact ((hselect rfl _ hcases).2 n hpos hlt).2

theorem settled_of_pins (hplain : asksOnlyPins kind = true) (hasked : cx.askedPins e = .ok pins)
    (hpins : ∀ pin ∈ pins, cx.KnowsPin s e pin) : cx.Settled s e := by
  refine settled_of_kind hkind hasked hpins (fun hk => ?_) (fun hk => ?_) (fun hk => ?_) fun hk => ?_ <;>
  · simp [asksOnlyPins, hk] at hplain

end Kinds

section Expressions

variable (hpass : cx.pass = .setup) (hlower : remembering.Walks lower) {kind : ExprKind}

include hlower in
theorem tries_children (hkind : cx.tree.kind e = .ok kind) (hexit : kind ≠ .exit) :
    remembering.Tries e 0 (liftM (cx.lowerChildren lower e) : Attempt Unit) :=
  Account.tries_step ((remembering_lawful cx).pays_lowerChildren trivial hlower hkind hexit)

include hpass hlower

theorem secures_lowerBranch (hkind : cx.tree.kind e = .ok .branch) :
    Secures (cx.lowerBranch lower e) (cx.Settled · e) := by
  have hpins : cx.askedPins e = .ok [PinName.condition] := by
    rw [askedPins, hkind]
    rfl
  unfold lowerBranch
  rw [hpass]
  refine .after (tries_children hlower hkind (by decide)) fun _ => ?_
  refine secures_pinOperand.map.mono fun s h => ?_
  exact settled_of_pins hkind rfl hpins (by simpa using h)

theorem secures_lowerIf (hkind : cx.tree.kind e = .ok .ifElse) :
    Secures (cx.lowerIf lower e) (cx.Settled · e) := by
  have hpins : cx.askedPins e =
      .ok [PinName.whenTrue, PinName.whenFalse, PinName.condition, PinName.result] := by
    rw [askedPins, hkind]
    rfl
  unfold lowerIf
  refine secures_requiredVar_bind fun whenTrue htrue => secures_requiredVar_bind fun whenFalse hfalse => ?_
  rw [hpass]
  refine .after (tries_children hlower hkind (by decide)) fun _ => ?_
  refine (secures_pinOperand.bind fun _ => secures_pinOperand.bind fun _ => secures_operandOf.bind fun _ =>
    secures_operandOf.map).mono fun s h => ?_
  obtain ⟨hcondition, hresult, hknows, hknows'⟩ := h
  refine settled_of_pins hkind rfl hpins ?_
  simp only [List.forall_mem_cons, List.not_mem_nil, false_imp_iff, implies_true, and_true]
  exact ⟨knowsPin_of_knows htrue hknows, knowsPin_of_knows hfalse hknows', hcondition, hresult⟩

theorem secures_lowerSelect (hkind : cx.tree.kind e = .ok .select) :
    Secures (cx.lowerSelect lower e) (cx.Settled · e) := by
  have hchildren : remembering.Tries e 0 (liftM (cx.lowerChildren lower e) : Attempt Unit) :=
    tries_children hlower hkind (by decide)
  unfold lowerSelect
  refine secures_lift_bind fun cases hcases => ?_
  rw [hpass]
  cases cases with
  | nil =>
    have hpins : cx.askedPins e = .ok [] := by
      rw [askedPins, hkind, Checked.ok_bind, hcases]
      rfl
    have hwarning (message : String) :
        remembering.Tries e 0 (liftM (cx.reportWarning (.expression e) message) : Attempt Unit) :=
      Account.tries_step ((remembering_lawful cx).pays_reportWarning _ _)
    refine Secures.after hchildren fun _ => (secures_of_tries (hwarning _)).mono fun s _ => ?_
    refine settled_of_kind hkind hpins (by simp) (fun h => absurd h (by decide)) (fun h => absurd h (by decide)) ?_
      fun h => absurd h (by decide)
    intro _ cases' hcases'
    rw [hcases] at hcases'
    cases hcases'
    simp
  | cons first others =>
    refine Secures.after hchildren fun _ => ?_
    have hlabels : Secures ((List.range' 1 others.length).forM fun label => do let _ ← cx.caseLabel label) fun s =>
        ∀ n ∈ List.range' 1 others.length, ∃ o, Repeated (cx.caseLabel n) o s.storage :=
      secures_forM fun n _ => (secures_recalls (recalls_caseLabel n)).map
    have hvalues : Secures ((first :: others).forM fun value => do let _ ← cx.operandOf value) fun s =>
        ∀ c ∈ first :: others, s.Knows c :=
      secures_forM fun c _ => secures_operandOf.map
    have hrest : Secures (do
        if others ≠ [] then let _ ← cx.comparisonScratch
        (first :: others).forM fun value => do let _ ← cx.operandOf value) fun s =>
          (others ≠ [] → ∃ o, Repeated cx.comparisonScratch o s.storage) ∧ ∀ c ∈ first :: others, s.Knows c := by
      dsimp only
      split
      · exact ((secures_recalls recalls_comparisonScratch).bind fun _ => hvalues).mono fun s h => ⟨fun _ => h.1, h.2⟩
      · next hne => exact hvalues.mono fun s h => ⟨fun h => absurd h hne, h⟩
    refine (secures_pinOperand.bind fun _ => secures_pinOperand.bind fun _ => hlabels.bind fun _ => hrest).mono
      fun s h => ?_
    obtain ⟨hindex, hresult, hlabel, hscratch, hknows⟩ := h
    refine settled_of_kind hkind (askedPins_select hkind hcases) (by simpa using ⟨hindex, hresult⟩)
      (fun h => absurd h (by decide)) (fun h => absurd h (by decide)) ?_ fun h => absurd h (by decide)
    intro _ cases' hcases'
    rw [hcases] at hcases'
    cases hcases'
    refine ⟨hknows, fun n hpos hlt => ?_⟩
    rw [List.length_cons] at hlt
    refine ⟨hlabel n (List.mem_range'_1.2 (by omega)), hscratch ?_⟩
    rintro rfl
    rw [List.length_nil] at hlt
    omega

theorem secures_lowerForLoop (hkind : cx.tree.kind e = .ok .call)
    (hnode : cx.tree.nodeKindOf e = .ok (some (.forLoop function))) :
    Secures (cx.lowerForLoop lower e function) (cx.Settled · e) := by
  have hpins := askedPins_forLoop hkind hnode
  unfold counterPins at hpins
  rw [hpass] at hpins
  unfold lowerForLoop
  rw [hpass]
  refine .after (tries_children hlower hkind (by decide)) fun _ => ?_
  refine (secures_callOperands.bind fun _ => secures_pinOperand.map).mono fun s ⟨hparameters, hproceed⟩ => ?_
  exact settled_of_pins hkind rfl hpins (List.forall_mem_cons.2 ⟨hproceed, hparameters⟩)

theorem secures_lowerCall (hkind : cx.tree.kind e = .ok .call) : Secures (cx.lowerCall lower e) (cx.Settled · e) := by
  have hfail : Secures (do throw (.notCallable (← cx.tree.expr e).name) : Attempt Unit) (cx.Settled · e) :=
    secures_lift_bind fun _ _ => secures_throw
  unfold lowerCall
  refine secures_lift_bind fun node hnode => ?_
  cases node with
  | none => exact hfail
  | some node => cases node with
    | unit function =>
      have hpins := askedPins_unit hkind hnode
      refine .after (tries_children hlower hkind (by decide)) fun _ => ?_
      rw [hpass]
      refine secures_callOperands.map.mono fun s h => ?_
      exact settled_of_pins hkind rfl hpins h
    | forLoop function => exact secures_lowerForLoop hpass hlower hkind hnode
    | _ => exact hfail

theorem secures_lowerArray (hkind : cx.tree.kind e = .ok .array) :
    Secures (cx.lowerArray lower e) (cx.Settled · e) := by
  have hfail : Secures (do throw (.notCallable (← cx.tree.expr e).name) : Attempt Unit) (cx.Settled · e) :=
    secures_lift_bind fun _ _ => secures_throw
  have hchildren : remembering.Tries e 0 (liftM (cx.lowerChildren lower e) : Attempt Unit) :=
    tries_children hlower hkind (by decide)
  unfold lowerArray
  refine secures_lift_bind fun node hnode => ?_
  cases node with
  | none => exact hfail
  | some node => cases node with
    | array op =>
      have hsettled (s : State) (h : ∀ pin ∈ op.pinNames, cx.KnowsPin s e pin) : cx.Settled s e :=
        settled_of_pins hkind rfl (askedPins_array hkind hnode) h
      cases op with
      | iterate =>
        show Secures (cx.lowerIterate lower e) _
        unfold lowerIterate
        rw [hpass]
        exact .after hchildren fun _ => (secures_forM fun _ _ => secures_pinOperand.map).mono hsettled
      | _ =>
        refine .after hchildren fun _ => ?_
        rw [hpass]
        exact (secures_mapM fun _ _ => secures_pinOperand).map.mono hsettled
    | _ => exact hfail

omit hpass hlower in
theorem tries_watchVar :
    remembering.Tries e 0 (do if (← cx.tree.kind e) = .var then cx.watch e o : Attempt Unit) := by
  refine Account.tries_lift_bind fun kind _ => ?_
  split
  · exact remembering_stores.tries_watch (remembering_lawful cx).toGraded
  · exact (remembering_lawful cx).tries_pure

theorem secures_lowerValue (hkind : cx.tree.kind e = .ok kind) (hvalue : kind.isValue = true) :
    Secures (cx.lowerValue lower e) (cx.Settled · e) := by
  have hpins : cx.askedPins e = .ok [] := by
    rw [askedPins, hkind]
    cases kind <;> first | rfl | cases hvalue
  have hsettled {s : State}
      (h : ∀ pin, cx.tree.pinOf e = .ok pin → pin.any Pin.isExecute = false → s.Knows e) : cx.Settled s e := by
    refine settled_of_kind hkind hpins (by simp) (fun _ => h) ?_ ?_ ?_
    · rintro rfl
      cases hvalue
    · rintro rfl
      cases hvalue
    · intro htransfer
      rw [isValue_of_isTransfer htransfer] at hvalue
      cases hvalue
  have hexit : kind ≠ .exit := by
    rintro rfl
    cases hvalue
  unfold lowerValue
  refine .after (tries_children hlower hkind hexit) fun _ => ?_
  rw [hpass]
  refine secures_lift_bind fun pin hpin => ?_
  split
  · next hexecute =>
    refine secures_pure fun s => hsettled fun pin' hpin' hno => ?_
    rw [hpin] at hpin'
    cases hpin'
    rw [hexecute] at hno
    cases hno
  · exact (secures_operandOf.before fun o => tries_watchVar).mono fun s h => hsettled fun _ _ _ => h

theorem secures_lowerTransfer (hkind : cx.tree.kind e = .ok kind) (htransfer : kind.isTransfer = true) :
    Secures (cx.lowerTransfer lower e) (cx.Settled · e) := by
  have hpins : cx.askedPins e = .ok [] := by
    rw [askedPins, hkind]
    cases kind <;> first | rfl | cases htransfer
  have hsettled {s : State} (h : ∀ x source target, cx.Transfers e x source target →
      (∃ o, Repeated (cx.valueOperand target) o s.storage) ∧
      ∀ r, x.children.findM? (m := Checked) cx.holdsValue = .ok r →
        r.elim (∃ o, Repeated (cx.valueOperand source) o s.storage) s.Knows) : cx.Settled s e := by
    refine settled_of_kind hkind hpins (by simp) ?_ ?_ ?_ fun _ => h
    · intro hvalue
      rw [isValue_of_isTransfer htransfer] at hvalue
      cases hvalue
    · rintro rfl
      cases htransfer
    · rintro rfl
      cases htransfer
  have hexit : kind ≠ .exit := by
    rintro rfl
    cases htransfer
  unfold lowerTransfer
  refine .after (tries_children hlower hkind hexit) fun _ => secures_lift_bind fun x hx => ?_
  have hx : cx.tree.expr? e = some x := Checked.get_eq_ok.1 hx
  -- There is only one way to move a value.
  have hunique {x' : Expression} {source source' target target' : Proxy} (hsource : x.source = some source)
      (htarget : x.proxy = some target) (h : cx.Transfers e x' source' target') :
      x' = x ∧ source' = source ∧ target' = target := by
    have heq := h.expr
    rw [hx] at heq
    cases heq
    exact ⟨rfl, Option.some.inj (h.reads.symm.trans hsource), Option.some.inj (h.writes.symm.trans htarget)⟩
  cases hsource : x.source with
  | none => exact secures_throw
  | some source => cases htarget : x.proxy with
    | none => exact secures_throw
    | some target =>
      refine secures_lift_bind fun execute hexecute => ?_
      cases execute with
      | true =>
        refine secures_pure fun s => hsettled fun x' source' target' h => ?_
        obtain ⟨rfl, rfl, rfl⟩ := hunique hsource htarget h
        have hno := h.value
        rw [hexecute] at hno
        cases hno
      | false =>
        have hread : Secures (cx.transferSource x source) fun s =>
            ∀ r, x.children.findM? (m := Checked) cx.holdsValue = .ok r →
              r.elim (∃ o, Repeated (cx.valueOperand source) o s.storage) s.Knows := by
          refine secures_lift_bind fun r hr => ?_
          cases r with
          | none =>
            refine (secures_recalls recalls_valueOperand).mono fun s h r' hr' => ?_
            obtain rfl : none = r' := Except.ok.inj (hr.symm.trans hr')
            exact h
          | some c =>
            refine secures_operandOf.mono fun s h r' hr' => ?_
            obtain rfl : some c = r' := Except.ok.inj (hr.symm.trans hr')
            exact h
        rw [hpass]
        refine (hread.bind fun _ => (secures_recalls recalls_valueOperand).map).mono fun s h => ?_
        refine hsettled fun x' source' target' hmoves => ?_
        obtain ⟨rfl, rfl, rfl⟩ := hunique hsource htarget hmoves
        exact ⟨h.2, h.1⟩

/-- Setup finds all operands that an expression needs, or gives it up. -/
theorem secures_lowerExpr : Secures (cx.lowerExpr lower e) (cx.Settled · e) := by
  unfold lowerExpr
  refine secures_lift_bind fun kind hkind => ?_
  have hsilent {m : Attempt Unit} (hm : remembering.Tries e 0 m) (hpins : cx.askedPins e = .ok [])
      (hplain : asksOnlyPins kind = true) : Secures m (cx.Settled · e) :=
    (secures_of_tries hm).mono fun s _ => settled_of_pins hkind hplain hpins (by simp)
  cases kind with
  | block | noOp =>
    exact hsilent (tries_children hlower hkind (by decide)) (by rw [askedPins, hkind]; rfl) rfl
  | entry =>
    exact hsilent (Account.tries_step ((remembering_lawful cx).entry trivial hkind hlower))
      (by rw [askedPins, hkind]; rfl) rfl
  | exit =>
    rw [hpass]
    exact hsilent (remembering_lawful cx).tries_pure (by rw [askedPins, hkind]; rfl) rfl
  | call => exact secures_lowerCall hpass hlower hkind
  | var | literal | externalVar => exact secures_lowerValue hpass hlower hkind rfl
  | assign | copy => exact secures_lowerTransfer hpass hlower hkind rfl
  | cachedValue =>
    have hpins : cx.askedPins e = .ok [] := by
      rw [askedPins, hkind]
      rfl
    refine .after (tries_children hlower hkind (by decide)) fun _ => secures_operandOf.map.mono fun s h => ?_
    exact settled_of_kind hkind hpins (by simp) (fun h => absurd h (by decide)) (fun _ => h)
      (fun h => absurd h (by decide)) fun h => absurd h (by decide)
  | branch => exact secures_lowerBranch hpass hlower hkind
  | ifElse => exact secures_lowerIf hpass hlower hkind
  | select => exact secures_lowerSelect hpass hlower hkind
  | array => exact secures_lowerArray hpass hlower hkind

/-! ## After setup -/

/-- The children of a value are met, whether its operand is found or not. -/
theorem ends_lowerValue_met (hkind : cx.tree.kind e = .ok kind) (hvalue : kind.isValue = true) (s : State) :
    Attempt.Ends (fun _ => True) s (cx.lowerExpr lower e)
      (fun _ s' => ∀ c, cx.tree.IsChild e c → s'.Met c) fun _ s' => ∀ c, cx.tree.IsChild e c → s'.Met c := by
  have hmet : Attempt.Ends (fun _ => True) s (cx.lowerValue lower e)
      (fun _ s' => ∀ c, cx.tree.IsChild e c → s'.Met c) fun _ s' => ∀ c, cx.tree.IsChild e c → s'.Met c := by
    unfold lowerValue
    have hcomes (c : ExprId) (s : State) : Step.Ends (fun _ => True) s (lower c) fun _ s' =>
        (∀ c', s.Met c' → s'.Met c') ∧ s'.Met c :=
      (hlower c trivial s trivial).mono fun _ _ h => ⟨fun _ hmet => h.1.met hmet, h.2⟩
    refine Attempt.ends_bind.2 (Attempt.ends_step.2 ((ends_lowerChildren_met hcomes).mono fun _ s1 h1 => ?_))
    have hrest : remembering.Tries e 0 (do
        if (← cx.tree.pinOf e).any Pin.isExecute then return ()
        else
          let operand ← cx.operandOf e
          if (← cx.tree.kind e) = .var then cx.watch e operand : Attempt Unit) := by
      refine Account.tries_lift_bind fun pin _ => ?_
      split
      · exact (remembering_lawful cx).tries_pure
      · exact (remembering_lawful cx).tries_after tries_operandOf_remembering fun o => tries_watchVar
    rw [hpass]
    exact (hrest s1 trivial).mono (fun _ _ h2 c hc => h2.met (h1 c hc)) fun _ _ h2 c hc => h2.1.met (h1 c hc)
  unfold lowerExpr
  rw [hkind]
  cases kind with
  | var | literal | externalVar => exact hmet
  | _ => cases hvalue

end Expressions

/-- The children of a value were met. -/
def BelowMet (cx : Context) (s : State) (e : ExprId) : Prop :=
  ∀ kind, cx.tree.kind e = .ok kind → kind.isValue = true → ∀ c, cx.tree.IsChild e c → s.Met c

/-- Setup has given an expression what it needs, or given it up. -/
structure Provided (cx : Context) (s : State) (e : ExprId) : Prop where
  settled : e ∈ s.failed ∨ cx.Settled s e
  below : cx.BelowMet s e

theorem Provided.mono (h : cx.Provided s e) (hle : s.Remembers s') : cx.Provided s' e where
  settled := h.settled.imp (hle.failed ·) fun hs => hs.mono hle
  below kind hkind hvalue c hc := hle.met (h.below kind hkind hvalue c hc)

/-- How an expression is left, by the end of its own lowering. If that fails, the expression has failed. -/
theorem ends_lowerUnder_of_expr {Q F : State → Prop}
    (hexpr : ∀ s, Attempt.Ends (fun _ => True) s (cx.lowerExpr lower e) (fun _ s' => Q s') fun _ s' => F s')
    (hok : ∀ s stack, Q s → P { s with callStack := stack })
    (hfail : ∀ s s', F s → cx.Extends s s' → e ∈ s'.failed → P s') (s : State) :
    Step.Ends (fun _ => True) s (cx.lowerUnder lower e) fun _ s' => P s' := by
  have hends (stack : CallStack) : Step.Ends (fun _ => True) s (cx.enter stack >>= fun _ =>
      (cx.lowerExpr lower e).run >>= Coupling.settle e s.callStack) fun _ s' => P s' := by
    refine Step.ends_bind.2 (Step.ends_true.mono fun _ s1 _ => Step.ends_bind.2 ?_)
    refine Step.Ends.mono (hexpr s1) fun r s2 h2 => ?_
    cases r with
    | ok _ => exact hok s2 s.callStack h2
    | error error =>
      refine Step.ends_bind.2 ((grows_fail cx).mono fun _ s3 h3 => ?_)
      exact hfail s2 _ h2 (h3.1.trans { Extends.refl s3 with }) h3.2
  unfold Step.Ends
  rw [Coupling.lowerUnder_apply]
  cases cx.tree.expr e with
  | error f => trivial
  | ok x => exact hends _

theorem ends_provided (hpass : cx.pass = .setup) (hlower : remembering.Walks lower) (s : State) :
    Step.Ends (fun _ => True) s (cx.lowerUnder lower e) fun _ s' => cx.Provided s' e := by
  have hbelow (s : State) : Attempt.Ends (fun _ => True) s (cx.lowerExpr lower e)
      (fun _ s' => cx.BelowMet s' e) fun _ s' => cx.BelowMet s' e := by
    by_cases hvalue : ∃ kind, cx.tree.kind e = .ok kind ∧ kind.isValue = true
    · obtain ⟨kind, hkind, hvalue⟩ := hvalue
      exact (ends_lowerValue_met hpass hlower hkind hvalue s).mono (fun _ _ h _ _ _ => h) fun _ _ h _ _ _ => h
    · exact Attempt.ends_true.mono (fun _ _ _ kind hk hv => absurd ⟨kind, hk, hv⟩ hvalue)
        fun _ _ _ kind hk hv => absurd ⟨kind, hk, hv⟩ hvalue
  have hexpr (s : State) : Attempt.Ends (fun _ => True) s (cx.lowerExpr lower e)
      (fun _ s' => cx.BelowMet s' e ∧ ∀ later, s'.Remembers later → cx.Settled later e) fun _ s' => cx.BelowMet s' e :=
    ((hbelow s).both (secures_lowerExpr hpass hlower s)).mono (fun _ _ h => ⟨h.1, h.2.2⟩) fun _ _ h => h.1
  refine ends_lowerUnder_of_expr hexpr (fun s stack h => ⟨.inr (h.2 _ { State.Remembers.refl s with }), h.1⟩) ?_ s
  intro s s' hmet hle hfailed
  exact ⟨.inl hfailed, fun kind hk hv c hc => hle.met (hmet kind hk hv c hc)⟩

end Context

/-! ## The setup pass -/

/-- What setup does to the expressions that it meets. -/
structure Context.Provides (cx : Context) (s s' : State) : Prop extends s.Remembers s' where
  provided : ∀ y ∈ s'.visited, y ∈ s.visited ∨ cx.Provided s' y

theorem Context.Provides.trans (h : cx.Provides s s') (h' : cx.Provides s' s'') :
    cx.Provides s s'' where
  toRemembers := h.toRemembers.trans h'.toRemembers
  provided y hy := by
    rcases h'.provided y hy with hy | hnew
    · exact (h.provided y hy).imp_right fun hold => hold.mono h'.toRemembers
    · exact .inr hnew

theorem Context.provides_of_remembers (h : s.Remembers s') (hvisited : s'.visited = s.visited) :
    cx.Provides s s' where
  toRemembers := h
  provided _ hy := .inl (hvisited ▸ hy)

/-- An expression is given up only after it was met. -/
def providing (cx : Context) : Account where
  moves e _ s s' := cx.Provides s s' ∧ ∀ y ∈ s'.failed, y ∈ s.failed ∨ y ∈ s'.visited ∨ y = e
  lowers c s s' := cx.Provides s s' ∧ s'.Met c ∧ ∀ y ∈ s'.failed, y ∈ s.failed ∨ y ∈ s'.visited
  ended e _ s' := cx.Provided s' e

theorem providing_trans {m n : Nat} (h : (providing cx).moves e m s s') (h' : (providing cx).moves e n s' s'') :
    (providing cx).moves e (m + n) s s'' := by
  refine ⟨h.1.trans h'.1, fun y hy => ?_⟩
  rcases h'.2 y hy with hy | hy | hy
  · exact (h.2 y hy).imp_right fun hy => hy.imp_left (h'.1.visited ·)
  · exact .inr (.inl hy)
  · exact .inr (.inr hy)

theorem providing_lawful (hpass : cx.pass = .setup) : (providing cx).Lawful cx := by
  have hself {e : ExprId} {s s' : State} (h : s.Remembers s') (hvisited : s'.visited = s.visited)
      (hfailed : s'.failed = s.failed) : (providing cx).moves e 0 s s' :=
    ⟨Context.provides_of_remembers h hvisited, fun y hy => .inl (hfailed ▸ hy)⟩
  have hruled : (providing cx).Ruled cx :=
    { refl := fun _ s => hself (.refl s) rfl rfl
      trans := providing_trans
      ends := fun {_ s _} _ _ hlower => Context.ends_provided hpass
        (fun c hc s hs => (hlower c hc s hs).mono fun _ _ h => ⟨h.1.toRemembers, h.2.1⟩) s
      once := fun {e s s'} _ _ _ _ h hended => by
        have hle : s'.Remembers { s' with spans := ⟨e, s.code.size, s'.code.size⟩ :: s'.spans } :=
          { State.Remembers.refl s' with }
        have hmet : e ∈ s'.visited := h.1.visited (List.mem_cons_self ..)
        refine ⟨⟨{ h.1.toRemembers with visited := fun _ hy => h.1.visited (List.mem_cons_of_mem _ hy) },
          fun y hy => ?_⟩, .inl hmet, fun y hy => ?_⟩
        · rcases h.1.provided y hy with hy | hnew
          · rcases List.mem_cons.1 hy with rfl | hy
            · exact .inr (hended.mono hle)
            · exact .inl hy
          · exact .inr (hnew.mono hle)
        · rcases h.2 y hy with hy | hy | rfl
          · exact .inl hy
          · exact .inr hy
          · exact .inr hmet
      skip := fun {_ s} _ _ hmet =>
        ⟨Context.provides_of_remembers (.refl s) rfl, hmet.symm, fun _ hy => .inl hy⟩
      of_lowers := fun h => ⟨h.1, fun y hy => (h.2.2 y hy).imp_right .inl⟩
      aside := fun {_ s s'} hs => by
        rw [hs]
        exact hself { State.Remembers.refl s with } rfl rfl
      error := fun _ s _ _ _ => hself { State.Remembers.refl s with } rfl rfl
      warning := fun _ s _ _ => hself { State.Remembers.refl s with } rfl rfl
      failed := fun e s => by
        refine ⟨Context.provides_of_remembers ?_ rfl, fun y hy => ?_⟩
        · exact { State.Remembers.refl s with failed := fun _ hy => List.mem_cons_of_mem _ hy }
        · exact (List.mem_cons.1 hy).elim (fun h => .inr (.inr h)) .inl
      push := fun {_ s _ _} _ _ _ => hself { State.Remembers.refl s with } rfl rfl
      land := fun {_ s _ _} _ _ => hself { State.Remembers.refl s with } rfl rfl }
  have hstores : (providing cx).Stores :=
    { storage := fun {_ s _} h _ => hself { State.Remembers.refl s with storage := h } rfl rfl
      remember := fun {_ _ s' c o} _ h => by
        have hle : s'.Remembers (s'.remember c o) :=
          { State.Remembers.refl s' with operands := fun hc => State.knows_remember.2 (.inl hc) }
        exact providing_trans h (hself hle rfl rfl)
      publish := fun _ s _ _ => hself { State.Remembers.refl s with } rfl rfl
      mirror := fun _ s _ => hself { State.Remembers.refl s with } rfl rfl }
  exact hruled.lawful hstores fun he hkind hlower =>
    hruled.pays_lowerEntry he hlower (fun s _ => hself { State.Remembers.refl s with } rfl rfl) hkind

/-- All expressions that setup met are provided for. -/
theorem Context.provided_of_lowerRoots (hpass : cx.pass = .setup) (hfailed : s.failed = [])
    (hrun : cx.lowerRoots s = .ok ((), s')) {y : ExprId} (hy : s'.Met y) :
    y ∈ s'.visited ∧ cx.Provided s' y := by
  -- `y` itself is not the expression on behalf of which the roots are lowered.
  obtain ⟨hprovides, hfails⟩ :=
    (providing_lawful hpass).moves_of_lowerRoots (fun _ _ => trivial) trivial hrun (y + 1)
  have hvisited : y ∈ s'.visited := by
    rcases hy with hy | hy
    · exact hy
    · rcases hfails y hy with hold | hmet | hself
      · have hold : y ∈ s.failed := hold
        rw [hfailed] at hold
        cases hold
      · exact hmet
      · exact absurd hself (Nat.ne_of_lt (Nat.lt_succ_self y))
  exact ⟨hvisited, (hprovides.provided y hvisited).resolve_left fun h => nomatch h⟩

end Lowering
end NodeGraph
