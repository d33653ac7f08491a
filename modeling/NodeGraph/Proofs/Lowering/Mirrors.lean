import NodeGraph.Proofs.Lowering.Operands
import NodeGraph.Proofs.Lowering.Settling
import NodeGraph.Proofs.Text

/-!
# Mirrors of watched pins

When the setup pass comes to a variable expression whose pin is watched, it lists the register of the watch among the
mirrors of the operand of the expression. Nothing else lists a mirror, and what is listed once stays. So the mirrors
that a pass has added are those of the watched expressions that it came to and did not give up: what is listed comes
from such an expression (`Shows.mirrored`), and such an expression has its mirror listed (`Shows.met`).
-/
namespace NodeGraph

/-! ## Maps -/

/-- What was put in is found under its key, and the other keys are found as before. -/
theorem SortedMap.get?_insert {κ ν : Type} [Ord κ] [Std.TransOrd κ] [Std.LawfulEqOrd κ] [DecidableEq κ]
    (m : SortedMap κ ν) (k k' : κ) (v : ν) : (m.insert k v).get? k' = if k' = k then some v else m.get? k' := by
  obtain ⟨l, hl⟩ := m
  show ((insertEntry k v l).find? _).map _ = if k' = k then some v else (l.find? _).map _
  clear hl
  induction l with
  | nil => by_cases hk : k' = k <;> simp [insertEntry, hk]
  | cons e rest ih =>
    rw [insertEntry]
    by_cases hk : k' = k
    · subst hk
      cases hcompare : compare k' e.1 <;> simp [hcompare, ih]
    · rw [if_neg hk] at ih ⊢
      cases hcompare : compare k e.1 with
      | lt => simp [hk]
      | eq =>
        have he : k = e.1 := by simpa using hcompare
        simp [hk, ← he]
      | gt =>
        by_cases he : k' = e.1
        · simp [he]
        · simpa [he] using ih

section Mirrors

variable {mirrors : SortedMap Operand (List Operand)} {live mirror o m : Operand}

/-- A mirror is listed under an operand. -/
def Listed (mirrors : SortedMap Operand (List Operand)) (o m : Operand) : Prop :=
  ∃ list, mirrors.get? o = some list ∧ m ∈ list

theorem listed_addMirror :
    Listed (Lowering.addMirror mirrors live mirror) o m ↔ Listed mirrors o m ∨ o = live ∧ m = mirror := by
  unfold Listed Lowering.addMirror
  dsimp only
  rw [SortedMap.get?_insert]
  by_cases ho : o = live
  · subst ho
    cases hget : mirrors.get? o with
    | none => simp
    | some present =>
      by_cases hmem : mirror ∈ present
      · simp only [Option.getD_some, hmem, if_true, Option.some.injEq, exists_eq_left', true_and]
        exact ⟨.inl, fun h => h.elim id fun heq => heq ▸ hmem⟩
      · simp [hmem]
  · simp [ho]

theorem nodup_addMirror (h : ∀ o list, mirrors.get? o = some list → list.Nodup) {list : List Operand}
    (hlist : (Lowering.addMirror mirrors live mirror).get? o = some list) : list.Nodup := by
  unfold Lowering.addMirror at hlist
  dsimp only at hlist
  rw [SortedMap.get?_insert] at hlist
  split at hlist
  · have hpresent : ((mirrors.get? live).getD []).Nodup := by
      cases hget : mirrors.get? live with
      | none => simp
      | some present => exact h live present hget
    cases hlist
    split
    · exact hpresent
    · next hnew =>
      refine List.nodup_append.2 ⟨hpresent, by simp, fun o' ho' m' hm' heq => hnew ?_⟩
      rwa [← List.mem_singleton.1 hm', ← heq]
  · exact h o list hlist

end Mirrors

/-! ## Watched paths -/

/-- A path is watched as it is, or without the call sites in front of its last `|`. -/
def CompileOptions.Watches (options : CompileOptions) (path : String) : Prop :=
  options.enablePinWatches = true ∧ ∃ w ∈ options.watchedPins, w = path ∨
    ∃ sites, path = sites ++ "|" ++ w ∧ '|' ∉ w.toList

theorem CompileOptions.isWatched_iff {options : CompileOptions} {path : String} :
    options.isWatched path = true ↔ options.Watches path := by
  have hbare (w : String) : w = barePath path ↔
      '|' ∉ w.toList ∧ (path = w ∨ ∃ sites, path = sites ++ "|" ++ w) := by
    have hlist : w = barePath path ↔ Text.afterLast '|' path.toList = w.toList := by
      rw [barePath, ← String.toList_inj, String.toList_ofList, eq_comm]
    rw [hlist, Text.afterLast_eq_iff, String.toList_inj]
    refine and_congr_right fun _ => or_congr_right ?_
    constructor
    · rintro ⟨front, hfront⟩
      refine ⟨String.ofList front, String.toList_inj.1 ?_⟩
      simp [hfront]
    · rintro ⟨sites, rfl⟩
      exact ⟨sites.toList, by simp⟩
  unfold isWatched Watches
  rw [Bool.and_eq_true, List.any_eq_true]
  refine and_congr_right fun _ => exists_congr fun w => and_congr_right fun _ => ?_
  rw [Bool.or_eq_true, decide_eq_true_eq, decide_eq_true_eq, hbare]
  constructor
  · rintro (rfl | ⟨hnone, rfl | ⟨sites, hsites⟩⟩)
    · exact .inl rfl
    · exact .inl rfl
    · exact .inr ⟨sites, hsites, hnone⟩
  · rintro (rfl | ⟨sites, hsites, hnone⟩)
    · exact .inl rfl
    · exact .inr ⟨hnone, .inr ⟨sites, hsites⟩⟩

/-! ## Watched expressions -/

/-- The expressions that are lowered if nothing fails: the roots, and the children of all of them but exits. -/
inductive Tree.Lowers (t : Tree) : ExprId → Prop
  | root {e : ExprId} : e ∈ t.roots → Lowers t e
  | child {e c : ExprId} {x : Expression} : Lowers t e → t.expr? e = some x → x.kind ≠ .exit → c ∈ x.children →
      Lowers t c

/-- A variable expression of a watched pin. Execution pins have no value to watch. -/
structure Tree.WatchedVar (t : Tree) (options : CompileOptions) (e : ExprId) (p : Proxy) : Prop where
  var : ∃ x, t.expr? e = some x ∧ x.kind = .var ∧ x.proxy = some p
  value : (p.pin?.bind t.graph.pin?).any Pin.isExecute = false
  watched : ∃ path, p.path t.graph = .ok path ∧ options.Watches path

theorem Tree.WatchedVar.proxy_eq {t : Tree} {options : CompileOptions} {e : ExprId} {p : Proxy} {x : Expression}
    (h : t.WatchedVar options e p) (hx : t.expr? e = some x) : x.proxy = some p := by
  obtain ⟨x', hx', -, hp⟩ := h.var
  cases hx.symm.trans hx'
  exact hp

namespace Lowering

namespace Context

variable {cx : Context} {s s' s'' : State} {e : ExprId} {o m : Operand}

/-- A watched expression has an operand, and its group of pins has a mirror. -/
def Mirrored (cx : Context) (s : State) (e : ExprId) (o m : Operand) : Prop :=
  ∃ p least, cx.tree.WatchedVar cx.options e p ∧ (e, o) ∈ s.operands ∧
    (cx.sharing.representative p).path cx.tree.graph = .ok least ∧
    s.storage.keyed.lookup (least ++ "::Debug") = some m

/-- If an expression is watched, its mirror is listed. -/
def Shown (cx : Context) (s : State) (e : ExprId) : Prop :=
  ∀ p, cx.tree.WatchedVar cx.options e p → ∃ o m, cx.Mirrored s e o m ∧ Listed s.mirrors o m

/-- What a part of setup does to the mirrors. -/
structure Shows (cx : Context) (s s' : State) : Prop where
  storage : s.storage.Extends s'.storage
  operands : s.operands ⊆ s'.operands
  failed : s.failed ⊆ s'.failed
  listed : ∀ {o m}, Listed s.mirrors o m → Listed s'.mirrors o m
  mirrored : ∀ {o m}, Listed s'.mirrors o m →
    Listed s.mirrors o m ∨ ∃ c, cx.tree.Lowers c ∧ cx.Mirrored s' c o m
  nodup : (∀ o list, s.mirrors.get? o = some list → list.Nodup) → ∀ o list, s'.mirrors.get? o = some list → list.Nodup
  met : ∀ c ∈ s'.visited, c ∈ s.visited ∨ cx.tree.Lowers c ∧ (c ∈ s'.failed ∨ cx.Shown s' c)

theorem Mirrored.mono (h : cx.Mirrored s e o m) (hle : cx.Shows s s') : cx.Mirrored s' e o m := by
  obtain ⟨p, least, hvar, ho, hpath, hm⟩ := h
  exact ⟨p, least, hvar, hle.operands ho, hpath, hle.storage.keyed hm⟩

theorem Shown.mono (h : cx.Shown s e) (hle : cx.Shows s s') : cx.Shown s' e := by
  intro p hp
  obtain ⟨o, m, hmirrored, hlisted⟩ := h p hp
  exact ⟨o, m, hmirrored.mono hle, hle.listed hlisted⟩

theorem Shows.trans (h : cx.Shows s s') (h' : cx.Shows s' s'') : cx.Shows s s'' where
  storage := h.storage.trans h'.storage
  operands := List.Subset.trans h.operands h'.operands
  failed := List.Subset.trans h.failed h'.failed
  listed hlisted := h'.listed (h.listed hlisted)
  mirrored hlisted := by
    rcases h'.mirrored hlisted with hlisted | hnew
    · refine (h.mirrored hlisted).imp_right ?_
      rintro ⟨c, hc, hmirrored⟩
      exact ⟨c, hc, hmirrored.mono h'⟩
    · exact .inr hnew
  nodup hs := h'.nodup (h.nodup hs)
  met c hc := by
    rcases h'.met c hc with hc | hnew
    · refine (h.met c hc).imp_right ?_
      rintro ⟨hlowers, hdone⟩
      exact ⟨hlowers, hdone.imp (h'.failed ·) (.mono · h')⟩
    · exact .inr hnew

/-- The mirrors and what was met stay the same. -/
theorem shows_of_eq (hstorage : s.storage.Extends s'.storage) (hoperands : s.operands ⊆ s'.operands)
    (hfailed : s.failed ⊆ s'.failed) (hmirrors : s'.mirrors = s.mirrors) (hvisited : s'.visited = s.visited) :
    cx.Shows s s' where
  storage := hstorage
  operands := hoperands
  failed := hfailed
  listed h := hmirrors ▸ h
  mirrored h := .inl (hmirrors ▸ h)
  nodup h := hmirrors ▸ h
  met _ hc := .inl (hvisited ▸ hc)

theorem Shows.refl (s : State) : cx.Shows s s :=
  shows_of_eq (.refl _) (List.Subset.refl _) (List.Subset.refl _) rfl rfl

theorem shows_addMirror (he : cx.tree.Lowers e) (h : cx.Mirrored s e o m) :
    cx.Shows s { s with mirrors := addMirror s.mirrors o m } where
  storage := .refl _
  operands := List.Subset.refl _
  failed := List.Subset.refl _
  listed hlisted := listed_addMirror.2 (.inl hlisted)
  mirrored hlisted := by
    rcases listed_addMirror.1 hlisted with hlisted | ⟨rfl, rfl⟩
    · exact .inl hlisted
    · exact .inr ⟨e, he, h⟩
  nodup hs _ _ hlist := nodup_addMirror hs hlist
  met _ hc := .inl hc

/-- An expression whose operand is found is remembered with it. -/
theorem ends_operandOf_mem (s : State) : Attempt.Ends (fun _ => True) s (cx.operandOf e)
    (fun o s' => (e, o) ∈ s'.operands) fun _ _ => True := by
  refine ends_operandOf fun find => Attempt.ends_get_bind.2 ?_
  cases hlookup : s.operands.lookup e with
  | some o => exact mem_of_lookup hlookup
  | none =>
    dsimp only
    split
    · trivial
    · exact Attempt.ends_bind.2 (Attempt.ends_true.mono (fun o s1 _ => List.mem_cons_self ..) fun _ _ _ => trivial)

end Context

/-! ## The setup pass -/

/-- The account of the mirrors that setup lists. -/
def mirroring (cx : Context) : Account where
  moves _ _ s s' := cx.Shows s s'
  lowers _ s s' := cx.Shows s s'
  ended e _ s' := e ∈ s'.failed ∨ cx.Shown s' e
  known := cx.tree.Lowers
  active := cx.tree.Lowers

section Mirroring

variable {cx : Context} {e : ExprId}

theorem mirroring_graded : (mirroring cx).Graded where
  refl _ s := .refl s
  trans h h' := h.trans h'
  raise h _ := h

theorem mirroring_locates : (mirroring cx).Locates where
  storage h _ := Context.shows_of_eq h (List.Subset.refl _) (List.Subset.refl _) rfl rfl
  remember _ h := h.trans
    (Context.shows_of_eq (.refl _) (List.subset_cons_self _ _) (List.Subset.refl _) rfl rfl)
  publish _ _ _ _ := Context.shows_of_eq (.refl _) (List.Subset.refl _) (List.Subset.refl _) rfl rfl

/-- The mirror of a watched expression is listed under its operand. -/
theorem Context.ends_watch (he : cx.tree.Lowers e) {x : Expression} (hx : cx.tree.expr? e = some x)
    (hkind : x.kind = .var) (hvalue : (x.pin?.bind cx.tree.graph.pin?).any Pin.isExecute = false) (s : State) :
    Attempt.Ends (fun _ => True) s (do cx.watch e (← cx.operandOf e)) (fun _ s' => cx.Shows s s' ∧ cx.Shown s' e)
      fun _ s' => cx.Shows s s' := by
  have hfinds : (mirroring cx).Tries e 0 (cx.operandOf e) := mirroring_locates.tries_operandOf mirroring_graded
  refine Attempt.ends_bind.2 (((hfinds s trivial).both (ends_operandOf_mem s)).mono ?_ fun _ _ h1 => h1.1.1)
  rintro o s1 ⟨h1, ho⟩
  unfold watch
  refine Attempt.ends_lift_bind fun x' hx' => ?_
  cases hx.symm.trans (Tree.expr_eq_ok.1 hx')
  cases hproxy : x.proxy with
  | none =>
    refine ⟨h1, fun p hp => ?_⟩
    cases hproxy.symm.trans (hp.proxy_eq hx)
  | some p =>
    refine Attempt.ends_lift_bind fun path hpath => ?_
    split
    · next hwatched =>
      have hvar : cx.tree.WatchedVar cx.options e p :=
        { var := ⟨x, hx, hkind, hproxy⟩
          value := by simpa [Expression.pin?, hproxy] using hvalue
          watched := ⟨path, hpath, CompileOptions.isWatched_iff.1 hwatched⟩ }
      have hfinds : (mirroring cx).Tries e 0 (cx.watchOperand p) := mirroring_locates.tries_finds finds_watchOperand
      refine Attempt.ends_bind.2 (((hfinds s1 trivial).both (finds_watchOperand.found s1)).mono ?_
        fun _ _ h2 => h1.trans h2.1.1)
      rintro mirror s2 ⟨h2, -, least, -, hleast, hmirror⟩
      have hmirrored : cx.Mirrored s2 e o mirror := ⟨p, least, hvar, h2.operands ho, hleast, hmirror⟩
      have hadds := shows_addMirror he hmirrored
      refine ⟨(h1.trans h2).trans hadds, fun _ _ => ⟨o, mirror, hmirrored.mono hadds, ?_⟩⟩
      exact listed_addMirror.2 (.inr ⟨rfl, rfl⟩)
    · next hwatched =>
      refine ⟨h1, fun p' hp' => ?_⟩
      obtain ⟨path', hpath', hpaths⟩ := hp'.watched
      cases hproxy.symm.trans (hp'.proxy_eq hx)
      cases hpath.symm.trans hpath'
      exact absurd (CompileOptions.isWatched_iff.2 hpaths) hwatched

variable (hpass : cx.pass = .setup)

include hpass

/-- A watched expression is given up, or its mirror is listed. -/
theorem Context.ends_shown (he : cx.tree.Lowers e) (lower : ExprId → Step Unit) (s : State) :
    Step.Ends (fun _ => True) s (cx.lowerUnder lower e) fun _ s' => e ∈ s'.failed ∨ cx.Shown s' e := by
  by_cases hwatched : ∃ p, cx.tree.WatchedVar cx.options e p
  · obtain ⟨p, ⟨x, hx, hkind, hproxy⟩, hvalue, -⟩ := hwatched
    have hvalue : (x.pin?.bind cx.tree.graph.pin?).any Pin.isExecute = false := by
      simpa [Expression.pin?, hproxy] using hvalue
    have hexpr (s : State) : Attempt.Ends (fun _ => True) s (cx.lowerExpr lower e) (fun _ s' => cx.Shown s' e)
        fun _ _ => True := by
      unfold lowerExpr
      rw [Tree.kind_eq hx, hkind]
      show Attempt.Ends _ s (cx.lowerValue lower e) _ _
      unfold lowerValue
      refine Attempt.ends_bind.2 (Attempt.ends_step.2 (Step.ends_true.mono fun _ s1 _ => ?_))
      rw [hpass]
      dsimp only
      rw [Tree.pinOf_eq hx, Tree.kind_eq hx, hkind]
      refine Attempt.ends_lift_bind fun pin hpin => ?_
      cases hpin
      rw [if_neg (by simp [hvalue])]
      exact (ends_watch he hx hkind hvalue s1).mono (fun _ _ h => h.2) fun _ _ _ => trivial
    exact ends_lowerUnder_of_expr hexpr (fun _ _ h => .inr h) (fun _ _ _ _ hfailed => .inl hfailed) s
  · exact Step.ends_true.mono fun _ _ _ => .inr fun p hp => absurd ⟨p, hp⟩ hwatched

theorem mirroring_lawful : (mirroring cx).Lawful cx := by
  have hself {s s' : State} (hstorage : s'.storage = s.storage) (hoperands : s'.operands = s.operands)
      (hfailed : s.failed ⊆ s'.failed) (hmirrors : s'.mirrors = s.mirrors) (hvisited : s'.visited = s.visited) :
      cx.Shows s s' :=
    Context.shows_of_eq (hstorage ▸ .refl _) (hoperands ▸ List.Subset.refl _) hfailed hmirrors hvisited
  have hsame (l : List ExprId) : l ⊆ l := List.Subset.refl l
  have hruled : (mirroring cx).Ruled cx :=
    { mirroring_graded with
      known_child := fun he hx hexit hc => .child he hx hexit hc
      known_below := fun hv hx hvalue hc => .child hv hx (fun hexit => by rw [hexit] at hvalue; cases hvalue) hc
      visit := fun he _ _ _ => ⟨he, trivial⟩
      ends := fun {_ s lower} he _ _ => Context.ends_shown hpass he lower s
      once := fun {e s s'} he _ _ _ h hended => by
        refine Context.Shows.trans { h with met := fun c hc => ?_ }
          (hself rfl rfl (hsame _) rfl rfl)
        rcases h.met c hc with hc | hnew
        · rcases List.mem_cons.1 hc with rfl | hc
          · exact .inr ⟨he, hended⟩
          · exact .inl hc
        · exact .inr hnew
      skip := fun {_ s} _ _ _ => .refl s
      of_lowers := fun h => h
      aside := fun hs => by
        rw [hs]
        exact hself rfl rfl (hsame _) rfl rfl
      error := fun _ _ _ _ _ => hself rfl rfl (hsame _) rfl rfl
      warning := fun _ _ _ _ => hself rfl rfl (hsame _) rfl rfl
      failed := fun e s => hself rfl rfl (List.subset_cons_self e s.failed) rfl rfl
      push := fun _ _ _ => hself rfl rfl (hsame _) rfl rfl
      land := fun _ _ => hself rfl rfl (hsame _) rfl rfl }
  have hfinds : (mirroring cx).Locates := mirroring_locates
  exact { hruled with
    entry := fun he hkind hlower =>
      hruled.pays_lowerEntry he hlower (fun _ _ => hself rfl rfl (hsame _) rfl rfl) hkind
    operand := fun _ _ => hfinds.tries_operandOf mirroring_graded
    value := fun _ _ => hfinds.tries_finds Context.finds_valueOperand
    label := fun {_ n} _ _ => hfinds.tries_finds (Context.finds_caseLabel n)
    scratch := fun _ _ => hfinds.tries_finds Context.finds_comparisonScratch
    watch := fun {e pin} he _ hkind hpin hexecute s _ => by
      obtain ⟨x, hx, hkind⟩ := Checked.bind_eq_ok.1 hkind
      have hx := Tree.expr_eq_ok.1 hx
      rw [Tree.pinOf_eq hx] at hpin
      cases hpin
      exact (Context.ends_watch he hx (Except.ok.inj hkind) hexecute s).mono (fun _ _ h => h.1)
        fun _ _ h => ⟨h, trivial⟩
    locals := fun e site _ => hfinds.pays_prepareLocals mirroring_graded (hruled.raisedForLocal site) (hruled.error e) }

end Mirroring

end Lowering
end NodeGraph
