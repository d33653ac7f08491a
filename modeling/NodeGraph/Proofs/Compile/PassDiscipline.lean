import Mathlib
import NodeGraph.Proofs.Compile.Bounds
import NodeGraph.Proofs.Lowering.Settling

/-!
# What is left to the second pass

Setup emits nothing, and emission finds the operands that setup found. There is one exception: the pins `Count`
and `Index` of a counted loop are asked for in emission alone. They have their operands by then if they are
values, since the value of a pin gets storage when it is met, or if they are parameters of the function. But an
execution pin gets none, and nothing keeps a loop from counting in execution pins (`Tree.CountsLate`). The
operands of such pins are all that emission adds, and without them it leaves the storage as it found it
(`emission_adds_late_counters`).
-/
namespace NodeGraph

open Lowering

/-- A counted loop takes its count or its index from a child that stands for an execution pin, and its function
has no parameter of that name. -/
def Tree.CountsLate (t : Tree) (catalog : Catalog) (e c : ExprId) : Prop :=
  ∃ function pin, t.kind e = .ok .call ∧ t.nodeKindOf e = .ok (some (.forLoop function)) ∧
    (pin = PinName.count ∨ pin = PinName.index) ∧
    (∀ found, catalog.find? function = some found → pin ∉ found.2.parameters.map (·.name)) ∧
    t.varForPin e pin = .ok (some c) ∧ ∃ p, t.pinOf c = .ok (some p) ∧ p.isExecute = true

/-! ## One operand more -/

namespace Lowering

/-- Nothing is mirrored, and the only operand that may be new is that of one expression. -/
structure State.FindsOnly (c : ExprId) (s s' : State) : Prop where
  mirrors : s'.mirrors = s.mirrors
  operands : ∀ {c'}, s'.Knows c' → s.Knows c' ∨ c' = c

theorem State.FindsOnly.refl (c : ExprId) (s : State) : s.FindsOnly c s := ⟨rfl, .inl⟩

namespace Context

variable {cx : Context} {s s' : State} {e c : ExprId}

theorem ends_findsOnly {a : Attempt Operand} {P : Storage → Operand → Prop} (h : cx.Finds a P) (s : State) :
    Attempt.Ends (fun _ => True) s a (fun _ s' => s.FindsOnly c s') fun _ s' => s.FindsOnly c s' := by
  have hstored {s' : State} (h1 : cx.Enlarges s.storage s'.storage ∧ s' = { s with storage := s'.storage }) :
      s.FindsOnly c s' := by
    rw [h1.2]
    exact ⟨rfl, .inl⟩
  exact (h.ends s).mono (fun _ _ h1 => hstored h1.1) fun _ _ h1 => hstored h1

theorem ends_pinExprOperand (s : State) : Attempt.Ends (fun _ => True) s (cx.pinExprOperand c)
    (fun _ s' => s.FindsOnly c s') fun _ s' => s.FindsOnly c s' := by
  have hpublish {a : Attempt Operand} {P : Storage → Operand → Prop} {p : Proxy} (h : cx.Finds a P) :
      Attempt.Ends (fun _ => True) s (do let o ← a; cx.publish p o; return o)
        (fun _ s' => s.FindsOnly c s') fun _ s' => s.FindsOnly c s' := by
    refine Attempt.ends_bind.2 ((ends_findsOnly h s).mono (fun o s1 h1 => ?_) fun _ _ h1 => h1)
    refine Attempt.ends_bind.2 (Attempt.ends_step.2 (Step.ends_lift_bind fun path _ => ?_))
    exact ⟨h1.mirrors, h1.operands⟩
  have hmemoized {find : Attempt Operand} (h : Attempt.Ends (fun _ => True) s find
      (fun _ s' => s.FindsOnly c s') fun _ s' => s.FindsOnly c s') :
      Attempt.Ends (fun _ => True) s (memoized c find)
        (fun _ s' => s.FindsOnly c s') fun _ s' => s.FindsOnly c s' := by
    refine Attempt.ends_get_bind.2 ?_
    split
    · exact .refl c s
    · split
      · exact .refl c s
      · refine Attempt.ends_bind.2 (h.mono (fun o s1 h1 => ⟨h1.mirrors, fun hc => ?_⟩) fun _ _ h1 => h1)
        exact (State.knows_remember.1 hc).elim h1.operands .inr
  refine Attempt.ends_lift_bind fun x _ => ?_
  refine hmemoized ?_
  split
  · exact ends_findsOnly finds_constantOperand s
  · exact hpublish finds_externalOperand
  · exact hpublish finds_valueOperand
  · split <;> exact .refl c s
  · exact .refl c s

end Context

/-! ## Emission -/

/-- The storage is the same, with all that was found in it. -/
structure State.Keeps (s s' : State) : Prop where
  storage : s'.storage = s.storage
  operands : s'.operands = s.operands
  pinPaths : s'.pinPaths = s.pinPaths

theorem State.Keeps.trans {s s' s'' : State} (h : s.Keeps s') (h' : s'.Keeps s'') : s.Keeps s'' :=
  ⟨h'.storage.trans h.storage, h'.operands.trans h.operands, h'.pinPaths.trans h.pinPaths⟩

/-- What emission adds: the operands of late counters, and nothing at all if there are none. -/
structure State.AddsLate (late : ExprId → Prop) (s s' : State) : Prop extends s.Remembers s' where
  mirrors : s'.mirrors = s.mirrors
  counters : ∀ {c}, s'.Knows c → s.Knows c ∨ late c
  keeps : (∀ c, ¬ late c) → s.Keeps s'

namespace State.AddsLate

variable {late : ExprId → Prop} {s s' s'' : State}

theorem refl (s : State) : s.AddsLate late s where
  toRemembers := .refl s
  mirrors := rfl
  counters := .inl
  keeps _ := ⟨rfl, rfl, rfl⟩

theorem trans (h : s.AddsLate late s') (h' : s'.AddsLate late s'') : s.AddsLate late s'' where
  toRemembers := h.toRemembers.trans h'.toRemembers
  mirrors := h'.mirrors.trans h.mirrors
  counters hc := (h'.counters hc).elim h.counters .inr
  keeps hnone := (h.keeps hnone).trans (h'.keeps hnone)

theorem of_findsOnly {c : ExprId} (hc : late c) (h : s.Remembers s') (hfinds : s.FindsOnly c s') :
    s.AddsLate late s' where
  toRemembers := h
  mirrors := hfinds.mirrors
  counters hknows := by
    rcases hfinds.operands hknows with hold | rfl
    · exact .inl hold
    · exact .inr hc
  keeps hnone := absurd hc (hnone c)

end State.AddsLate

/-- What setup found and gave up is there. -/
structure State.StandsOn (prepared s : State) : Prop where
  storage : prepared.storage.Extends s.storage
  operands : ∀ {c}, prepared.Knows c → s.Knows c
  failed : prepared.failed ⊆ s.failed

/-- Emission after setup. It may come to the expressions that setup met. -/
def emitting (prepared : State) (late : ExprId → Prop) : Account where
  guard s := prepared.StandsOn s
  moves _ _ s s' := s.AddsLate late s'
  lowers _ s s' := s.AddsLate late s'
  known := prepared.Met
  active e := e ∈ prepared.visited ∧ e ∉ prepared.failed

namespace Context

section Late

variable {cx : Context} {c : ExprId}

/-- The operand of a value is found for it alone. -/
theorem ends_operandOf_value {kind : ExprKind} (hkind : cx.tree.kind c = .ok kind) (hvalue : kind.isValue = true)
    (s : State) : Attempt.Ends (fun _ => True) s (cx.operandOf c)
      (fun _ s' => s.FindsOnly c s') fun _ s' => s.FindsOnly c s' := by
  unfold operandOf
  rw [hkind]
  cases kind with
  | var | literal | externalVar => exact ends_pinExprOperand s
  | _ => cases hvalue

theorem ends_operandOf_late {late : ExprId → Prop} (hc : late c) {kind : ExprKind} (hkind : cx.tree.kind c = .ok kind)
    (hvalue : kind.isValue = true) (s : State) : Attempt.Ends (fun _ => True) s (cx.operandOf c)
      (fun _ s' => s.AddsLate late s') fun _ s' => s.AddsLate late s' := by
  have hremembers : remembering.Tries c 0 (cx.operandOf c) := tries_operandOf_remembering
  exact ((hremembers s trivial).both (ends_operandOf_value hkind hvalue s)).mono
    (fun _ _ h => .of_findsOnly hc h.1 h.2) fun _ _ h => .of_findsOnly hc h.1.1 h.2

end Late

variable {t : Tree} {env : Environment} {options : CompileOptions} {sharing : Sharing} {prepared : State}
  {e c : ExprId}

/-- The pins asked for in both passes are the same, but for those that a loop counts in. -/
theorem mem_askedPins_emit {pins : List String} {pin : String}
    (h : Context.askedPins ⟨t, env, options, sharing, .emit⟩ e = .ok pins) (hpin : pin ∈ pins) :
    (∃ pins', Context.askedPins ⟨t, env, options, sharing, .setup⟩ e = .ok pins' ∧ pin ∈ pins') ∨
      ∃ function, t.kind e = .ok .call ∧ t.nodeKindOf e = .ok (some (.forLoop function)) ∧
        (pin = PinName.count ∨ pin = PinName.index) := by
  by_cases hloop : ∃ function, t.kind e = .ok .call ∧ t.nodeKindOf e = .ok (some (.forLoop function))
  · obtain ⟨function, hkind, hnode⟩ := hloop
    rw [askedPins_forLoop hkind hnode] at h
    cases h
    rcases List.mem_append.1 hpin with hcounter | hpin
    · exact .inr ⟨function, hkind, hnode, by simpa [counterPins] using hcounter⟩
    · exact .inl ⟨_, askedPins_forLoop hkind hnode, List.mem_append_right _ hpin⟩
  · refine .inl ⟨pins, ?_, hpin⟩
    unfold askedPins at h ⊢
    dsimp only at h ⊢
    cases hkind : t.kind e with
    | error f =>
      rw [hkind] at h
      cases h
    | ok kind =>
      rw [hkind] at h
      cases kind with
      | call =>
        cases hnode : t.nodeKindOf e with
        | error f =>
          rw [Checked.ok_bind, hnode] at h
          cases h
        | ok node =>
          rw [Checked.ok_bind, hnode] at h
          cases node with
          | none => exact h
          | some node => cases node with
            | forLoop function => exact absurd ⟨function, hkind, hnode⟩ hloop
            | _ => exact h
      | _ => exact h

theorem transfers_setup {x : Expression} {source target : Proxy}
    (h : Context.Transfers ⟨t, env, options, sharing, .emit⟩ e x source target) :
    Context.Transfers ⟨t, env, options, sharing, .setup⟩ e x source target :=
  ⟨h.expr, h.kind, h.reads, h.writes, h.value⟩

theorem asksPin_setup {p : Proxy} (h : Context.AsksPin ⟨t, env, options, sharing, .emit⟩ e p) :
    Context.AsksPin ⟨t, env, options, sharing, .setup⟩ e p := by
  cases h with
  | target hmoves => exact .target (transfers_setup hmoves)
  | source hmoves hfind => exact .source (transfers_setup hmoves) hfind

/-- What emission asks for was found in setup, or is given up, or is a late counter. -/
theorem known_of_asks (hprovided : ∀ {y}, prepared.Met y →
      y ∈ prepared.visited ∧ Context.Provided ⟨t, env, options, sharing, .setup⟩ prepared y)
    (hchildren : Context.ChildrenMet ⟨t, env, options, sharing, .setup⟩ prepared e)
    (he : e ∈ prepared.visited) (hfailed : e ∉ prepared.failed)
    (hasks : Context.Asks ⟨t, env, options, sharing, .emit⟩ e c) :
    prepared.Knows c ∨ c ∈ prepared.failed ∨
      t.CountsLate env.catalog e c ∧ ∃ kind, t.kind c = .ok kind ∧ kind.isValue = true := by
  have hsettled := (hprovided (.inl he)).2.settled.resolve_left hfailed
  cases hasks with
  | value hpass => cases hpass
  | cached hkind => exact .inl (hsettled.operand (.cached hkind))
  | case hkind hcases hc => exact .inl (hsettled.operand (.case hkind hcases hc))
  | source hmoves hfind => exact .inl (hsettled.operand (.source (transfers_setup hmoves) hfind))
  | @pin pins pin _ hpins hpin hvar =>
    rcases mem_askedPins_emit hpins hpin with ⟨pins', hpins', hpin'⟩ | ⟨function, hkind, hnode, hcounter⟩
    · exact .inl (hsettled.operand (.pin hpins' hpin' hvar))
    by_cases hparameter : pin ∈ Context.parameterPins ⟨t, env, options, sharing, .setup⟩ function
    · have hasked := List.mem_append_right (Context.counterPins ⟨t, env, options, sharing, .setup⟩)
        (List.mem_cons_of_mem PinName.proceed hparameter)
      exact .inl (hsettled.operand (.pin (askedPins_forLoop hkind hnode) hasked hvar))
    by_cases hc : c ∈ prepared.failed
    · exact .inr (.inl hc)
    obtain ⟨⟨x, hx, hchild⟩, y, hy, hvalue⟩ := Tree.isChild_of_varForPin hvar
    have hcall : x.kind = .call := Except.ok.inj ((Tree.kind_eq hx).symm.trans hkind)
    have hmet : prepared.Met c := hchildren x hx (by rw [hcall]; decide) c hchild
    have hc := (hprovided hmet).2.settled.resolve_left hc
    have hpinOf : t.pinOf c = .ok (y.pin?.bind t.graph.pin?) := Tree.pinOf_eq hy
    cases hexecute : (y.pin?.bind t.graph.pin?).any Pin.isExecute with
    | false => exact .inl (hc.operand (.value rfl (Tree.kind_eq hy) hvalue hpinOf hexecute))
    | true =>
      obtain ⟨p, hp, hexecute⟩ := Option.any_eq_true _ _ |>.1 hexecute
      rw [hp] at hpinOf
      refine .inr (.inr ⟨⟨function, pin, hkind, hnode, hcounter, fun found hfound => ?_, hvar, p, hpinOf, hexecute⟩,
        _, Tree.kind_eq hy, hvalue⟩)
      unfold parameterPins at hparameter
      rw [hfound] at hparameter
      exact hparameter

end Context

/-- Emission adds only late counters of expressions that setup met. -/
theorem emitting_lawful {t : Tree} {env : Environment} {options : CompileOptions} {sharing : Sharing} {prepared : State}
    {late : ExprId → Prop} (hlate : ∀ e c, e ∈ prepared.visited → t.CountsLate env.catalog e c → late c)
    (hprovided : ∀ {y}, prepared.Met y →
      y ∈ prepared.visited ∧ Context.Provided ⟨t, env, options, sharing, .setup⟩ prepared y)
    (hchildren : ∀ {y}, y ∈ prepared.visited → y ∉ prepared.failed →
      Context.ChildrenMet ⟨t, env, options, sharing, .setup⟩ prepared y) :
    (emitting prepared late).Lawful ⟨t, env, options, sharing, .emit⟩ := by
  have hself {s s' : State} (h : s.Remembers s') (hmirrors : s'.mirrors = s.mirrors) (hkeeps : s.Keeps s') :
      s.AddsLate late s' :=
    ⟨h, hmirrors, fun ⟨o, ho⟩ => .inl ⟨o, hkeeps.operands ▸ ho⟩, fun _ => hkeeps⟩
  have hruled : (emitting prepared late).Ruled ⟨t, env, options, sharing, .emit⟩ :=
    { refl := fun _ s => .refl s
      trans := fun h h' => State.AddsLate.trans h h'
      keeps := fun hs h =>
        ⟨hs.storage.trans h.storage, fun hc => h.operands (hs.operands hc), List.Subset.trans hs.failed h.failed⟩
      known_child := fun he hx hexit hc => hchildren he.1 he.2 _ hx hexit _ hc
      known_below := fun hv hx hvalue hc => (hprovided hv).2.below _ (Tree.kind_eq hx) hvalue _ ⟨_, hx, hc⟩
      visit := fun he hs hfailed _ =>
        ⟨⟨(hprovided he).1, fun h => hfailed (hs.failed h)⟩, hs.storage, hs.operands, hs.failed⟩
      once := fun {e s s'} _ _ _ _ h _ => by
        have hmark : s.AddsLate late { s with visited := e :: s.visited } :=
          hself { State.Remembers.refl s with visited := fun _ hy => List.mem_cons_of_mem _ hy } rfl ⟨rfl, rfl, rfl⟩
        have hnote : s'.AddsLate late { s' with spans := ⟨e, s.code.size, s'.code.size⟩ :: s'.spans } :=
          hself { State.Remembers.refl s' with } rfl ⟨rfl, rfl, rfl⟩
        exact hmark.trans (State.AddsLate.trans h hnote)
      skip := fun {_ s} _ _ _ => .refl s
      of_lowers := fun h => h
      aside := fun {_ s s'} hs => by
        rw [hs]
        exact hself { State.Remembers.refl s with } rfl ⟨rfl, rfl, rfl⟩
      error := fun _ s _ _ _ => hself { State.Remembers.refl s with } rfl ⟨rfl, rfl, rfl⟩
      warning := fun _ s _ _ => hself { State.Remembers.refl s with } rfl ⟨rfl, rfl, rfl⟩
      failed := fun _ s => hself { State.Remembers.refl s with failed := fun _ hy => List.mem_cons_of_mem _ hy } rfl
        ⟨rfl, rfl, rfl⟩
      push := fun {_ s _ _} _ _ _ => hself { State.Remembers.refl s with } rfl ⟨rfl, rfl, rfl⟩
      land := fun {_ s _ _} _ _ => hself { State.Remembers.refl s with } rfl ⟨rfl, rfl, rfl⟩ }
  -- An attempt that changes nothing is accounted for.
  have hidle {α : Type} {e : ExprId} {m : Attempt α} {s : State}
      (h : Attempt.Ends (fun _ => True) s m (fun _ s' => s' = s) fun _ s' => s' = s) :
      (emitting prepared late).TriesFrom e 0 s m :=
    h.mono (fun _ _ h => h ▸ .refl _) fun _ _ h => ⟨h ▸ .refl _, trivial⟩
  have hrepeated {α : Type} {e : ExprId} {m : Attempt α} (h : ∃ x, Repeated m x prepared.storage) :
      (emitting prepared late).Tries e 0 m := by
    obtain ⟨x, hx⟩ := h
    exact fun s hs => hidle ((hx s hs.storage).mono (fun _ _ h1 => h1.2) fun _ _ h1 => h1.elim)
  have hsettled {e : ExprId} (he : (emitting prepared late).active e) :
      Context.Settled ⟨t, env, options, sharing, .setup⟩ prepared e :=
    (hprovided (.inl he.1)).2.settled.resolve_left he.2
  exact { hruled with
    entry := fun he hkind hlower => hruled.pays_lowerEntry he hlower
      (fun s _ => hself { State.Remembers.refl s with } rfl ⟨rfl, rfl, rfl⟩) hkind
    operand := fun {e c} he hasks s hs => by
      rcases Context.known_of_asks hprovided (hchildren he.1 he.2) he.1 he.2 hasks with
        hknows | hfailed | ⟨hcounts, kind, hkind, hvalue⟩
      · exact hidle (Context.ends_operandOf_known (.inl (hs.operands hknows)))
      · exact hidle (Context.ends_operandOf_known (.inr (hs.failed hfailed)))
      · exact (Context.ends_operandOf_late (hlate e c he.1 hcounts) hkind hvalue s).mono (fun _ _ h => h)
          fun _ _ h => ⟨h, trivial⟩
    value := fun he hp => hrepeated ((hsettled he).value (Context.asksPin_setup hp))
    label := fun he hn => hrepeated ((hsettled he).label hn)
    scratch := fun he hn => hrepeated ((hsettled he).scratch hn)
    watch := fun _ hpass => nomatch hpass
    locals := fun _ _ hpass => nomatch hpass }

end Lowering

/-! ## Both passes -/

namespace Tree

variable {t : Tree} {env : Environment} {options : CompileOptions} {sharing : Sharing} {checked prepared s : State}

/-- Emission adds only late counters to what setup found. -/
theorem Passes.addsLate (h : t.Passes env options sharing checked prepared s) :
    prepared.restarted.AddsLate (fun c => ∃ e ∈ prepared.visited, t.CountsLate env.catalog e c) s := by
  have hfailed : checked.failed = [] := congrArg State.failed h.checked_eq
  have hchildren {y : ExprId} (hy : y ∈ prepared.visited) (hfailed : y ∉ prepared.failed) :
      Context.ChildrenMet ⟨t, env, options, sharing, .setup⟩ prepared y := by
    have hcovered := (h.setup.covered rfl y hy).resolve_left fun h => nomatch h
    exact (hcovered.resolve_left hfailed).1
  have hlawful : (emitting prepared fun c => ∃ e ∈ prepared.visited, t.CountsLate env.catalog e c).Lawful
      ⟨t, env, options, sharing, .emit⟩ :=
    emitting_lawful (fun e c he hc => ⟨e, he, hc⟩)
      (fun hy => Context.provided_of_lowerRoots rfl hfailed h.prepares hy) hchildren
  have hstart : prepared.StandsOn prepared.restarted := ⟨.refl _, fun hc => hc, fun _ hy => hy⟩
  exact hlawful.moves_of_lowerRoots h.met hstart h.emits 0

/-- Of the two passes over a tree without issues, the first one emits no instruction and notes no entry. The second
one mirrors nothing, and finds no operand that the first one has not found, but for those of late counters. If
setup met no loop with such a counter, emission leaves the registers, the property paths, the keys and the names
of pins as they were when it began. -/
theorem emission_adds_late_counters (hissues : t.issues env = .ok []) (hs : t.lowered env options = .ok s) :
    ∃ sharing checked prepared, Sharing.ofTree t = .ok sharing ∧ t.Passes env options sharing checked prepared s ∧
      prepared.code = {} ∧ s.mirrors = prepared.mirrors ∧ prepared.storage.Extends s.storage ∧
      (∀ c, s.Knows c → prepared.Knows c ∨ ∃ e ∈ prepared.visited, t.CountsLate env.catalog e c) ∧
      ((∀ e ∈ prepared.visited, ∀ c, ¬ t.CountsLate env.catalog e c) →
        s.storage = prepared.storage ∧ s.operands = prepared.operands ∧ s.pinPaths = prepared.pinPaths) := by
  have ht := valid_of_issues hissues
  obtain ⟨sharing, hsharing, hexists⟩ := Sharing.exists_ofTree ht
  rw [lowered_eq hsharing] at hs
  obtain ⟨checked, prepared, hpasses⟩ := exists_passes hs
  have hadds := hpasses.addsLate
  refine ⟨sharing, checked, prepared, hsharing, hpasses, (hpasses.loweredOnce ht hexists).2.2.1, hadds.mirrors,
    hadds.storage, fun c hc => hadds.counters hc, fun hnone => ?_⟩
  have hkeeps := hadds.keeps fun c ⟨e, he, hc⟩ => hnone e he c hc
  exact ⟨hkeeps.storage, hkeeps.operands, hkeeps.pinPaths⟩

end Tree

/-! ## A loop that counts -/

/-- A loop and a call after it. The function of the loop knows only whether to go on. -/
def tallyTree (countType : String) : Tree where
  graph := {
    nodes := [⟨"Go", .event "Go", [], none⟩, ⟨"Loop", .forLoop "below", [0, 1, 2, 3], none⟩,
      ⟨"Note", .unit "note", [4], none⟩]
    pins := [
      { node := 1, name := "ExecuteContext", direction := .inOut, typeName := executeType },
      { node := 1, name := "Count", direction := .input, typeName := countType },
      { node := 1, name := "Index", direction := .output, typeName := "int32" },
      { node := 1, name := "Continue", direction := .hidden, typeName := "bool" },
      { node := 2, name := "Value", direction := .input, typeName := "int32" }] }
  exprs := [
    { kind := .entry, name := "Go", children := [1, 6], proxy := some ⟨[], .node 0⟩ },
    { kind := .call, name := "Loop", children := [2, 3, 4, 5], proxy := some ⟨[], .node 1⟩ },
    { kind := .var, name := "ExecuteContext", proxy := some ⟨[], .pin 0⟩ },
    { kind := .var, name := "Count", proxy := some ⟨[], .pin 1⟩ },
    { kind := .var, name := "Index", proxy := some ⟨[], .pin 2⟩ },
    { kind := .var, name := "Continue", proxy := some ⟨[], .pin 3⟩ },
    { kind := .call, name := "Note", children := [7], proxy := some ⟨[], .node 2⟩ },
    { kind := .var, name := "Value", proxy := some ⟨[], .pin 4⟩ }]
  roots := [0]

def tallyEnv : Environment where
  catalog := ⟨[⟨"below", [⟨"Continue", .output⟩]⟩, ⟨"note", [⟨"Value", .input⟩]⟩]⟩

theorem not_countsLate_tallyTree (e c : ExprId) : ¬ (tallyTree "int32").CountsLate tallyEnv.catalog e c := by
  rintro ⟨function, pin, hkind, -, hpin, -, hvar, p, hp, hexecute⟩
  obtain ⟨x, hx, -⟩ := Checked.bind_eq_ok.1 hkind
  have hlt : e < 8 := Tree.lt_of_expr? (Tree.expr_eq_ok.1 hx)
  have hvalues : ∀ e < 8, ∀ pin ∈ [PinName.count, PinName.index],
      ((tallyTree "int32").varForPin e pin).toOption.join.all
        fun c => !((tallyTree "int32").pinOf c).toOption.join.any Pin.isExecute := by
    decide +kernel
  have hvalue := hvalues e hlt pin (by simpa using hpin)
  rw [hvar] at hvalue
  simp [Except.toOption, hp, hexecute] at hvalue

/-- A loop that counts in numbers gets their registers in setup, also if its function does not know them. -/
theorem Tree.emission_adds_late_counters_int32 : (tallyTree "int32").issues tallyEnv = .ok [] ∧
    ∃ sharing checked prepared s, (tallyTree "int32").Passes tallyEnv {} sharing checked prepared s ∧
      prepared.code = {} ∧ s.storage = prepared.storage ∧ s.mirrors = prepared.mirrors ∧
      s.pinPaths = prepared.pinPaths ∧ s.code.size = 9 ∧
      s.storage.work.registers.map (·.name) = ["Loop.Count", "Loop.Index", "Loop.Continue", "Note.Value"] := by
  have hissues : (tallyTree "int32").issues tallyEnv = .ok [] := rfl
  have hrun : ∃ s, (tallyTree "int32").lowered tallyEnv {} = .ok s ∧ s.code.size = 9 ∧
      s.storage.work.registers.map (·.name) = ["Loop.Count", "Loop.Index", "Loop.Continue", "Note.Value"] :=
    Checked.exists_ok_of_any (by decide +kernel)
  obtain ⟨s, hs, hsize, hnames⟩ := hrun
  obtain ⟨sharing, checked, prepared, -, hpasses, hcode, hmirrors, -, -, hkeeps⟩ :=
    Tree.emission_adds_late_counters hissues hs
  obtain ⟨hstorage, -, hpaths⟩ := hkeeps fun e _ c => not_countsLate_tallyTree e c
  exact ⟨hissues, sharing, checked, prepared, s, hpasses, hcode, hstorage, hmirrors, hpaths, hsize, hnames⟩

/-- A loop that counts in an execution pin gets its register only when it is emitted, behind that of the call. -/
theorem tallyTree_allocates_late : (tallyTree executeType).issues tallyEnv = .ok [] ∧
    ∃ sharing checked prepared s, Sharing.ofTree (tallyTree executeType) = .ok sharing ∧
      (tallyTree executeType).Passes tallyEnv {} sharing checked prepared s ∧ s.report.errors = 0 ∧
      prepared.storage.work.registers.map (·.name) = ["Loop.Index", "Loop.Continue", "Note.Value"] ∧
      s.storage.work.registers.map (·.name) = ["Loop.Index", "Loop.Continue", "Note.Value", "Loop.Count"] ∧
      prepared.pinPaths.get? "Loop.Count" = none ∧
      s.pinPaths.get? "Loop.Count" = some { memory := .work, index := 3 } := by
  have hsharing : Sharing.ofTree (tallyTree executeType) = .ok {} := rfl
  have hrun : ∃ s, (tallyTree executeType).loweredWith tallyEnv {} {} = .ok s ∧ s.report.errors = 0 ∧
      s.storage.work.registers.map (·.name) = ["Loop.Index", "Loop.Continue", "Note.Value", "Loop.Count"] ∧
      s.pinPaths.get? "Loop.Count" = some { memory := .work, index := 3 } :=
    Checked.exists_ok_of_any (by decide +kernel)
  have hsetup : ∃ r : Unit × State, (do
        Context.checkWatches ⟨tallyTree executeType, tallyEnv, {}, {}, .setup⟩
        Context.lowerRoots ⟨tallyTree executeType, tallyEnv, {}, {}, .setup⟩ : Step Unit) {} = .ok r ∧
      r.2.storage.work.registers.map (·.name) = ["Loop.Index", "Loop.Continue", "Note.Value"] ∧
      r.2.pinPaths.get? "Loop.Count" = none :=
    Checked.exists_ok_of_any (by decide +kernel)
  obtain ⟨s, hs, herrors, hnames, hpath⟩ := hrun
  obtain ⟨r, hr, hbefore⟩ := hsetup
  obtain ⟨checked, prepared, hpasses⟩ := Tree.exists_passes hs
  have hsetup := Step.bind_apply (Context.checkWatches ⟨tallyTree executeType, tallyEnv, {}, {}, .setup⟩)
    (fun _ => Context.lowerRoots ⟨tallyTree executeType, tallyEnv, {}, {}, .setup⟩) {}
  rw [hpasses.checks, Checked.ok_bind, hpasses.prepares] at hsetup
  obtain rfl : ((), prepared) = r := Except.ok.inj (hsetup.symm.trans hr)
  exact ⟨rfl, {}, checked, prepared, s, hsharing, hpasses, herrors, hbefore.1, hnames, hbefore.2, hpath⟩

end NodeGraph
