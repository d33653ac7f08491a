import NodeGraph.Proofs.Tree.Traversal

/-!
# Building trees

A tree says twice how expressions hang together: in the children of the one and in the parents of the other.
All operations that build a tree come down to four: an expression without relatives is added as a root or
below a parent, an expression is attached to another one, and a link is recorded. Being added below a parent
and being attached do the same to the lists of children and parents (`Joined`), so the two sides count alike
after both (`Mirrored.join`). `Grows` says what an operation leaves, with its new roots and links, and it
composes. So the books are kept after any sequence of calls (`build_recorded`), and in a well-formed graph no
call that names existing things fails.
-/
namespace NodeGraph

open Checked

/-- The link that a transfer stands for. -/
def Expression.link? (x : Expression) : Option ProxyLink :=
  x.source.bind fun source => x.proxy.map fun target => ⟨source, target⟩

namespace Tree

/-! ## Children and parents -/

section Relatives

variable {l l' : List Expression} {x y : Expression} {e i child parent : ExprId} {side : Expression → List ExprId}

/-- The children or the parents of an expression, none if it does not exist. -/
def relatives (side : Expression → List ExprId) (l : List Expression) (e : ExprId) : List ExprId :=
  (l[e]?.map side).getD []

theorem relatives_eq (hx : l[e]? = some x) : relatives side l e = side x := by
  rw [relatives, hx]
  rfl

theorem relatives_eq_nil (he : l.length ≤ e) : relatives side l e = [] := by
  rw [relatives, List.getElem?_eq_none he]
  rfl

theorem relatives_snoc (hx : side x = []) : relatives side (l ++ [x]) e = relatives side l e := by
  rcases Nat.lt_trichotomy e l.length with hlt | rfl | hgt
  · rw [relatives, List.getElem?_append_left hlt, relatives]
  · rw [relatives_eq (x := x) (by simp), hx, relatives_eq_nil (Nat.le_refl _)]
  · rw [relatives_eq_nil (by simpa using Nat.succ_le_of_lt hgt), relatives_eq_nil (Nat.le_of_lt hgt)]

/-- An expression that is replaced gets more relatives, and the others keep theirs. -/
theorem relatives_set {more : List ExprId} (hx : l[i]? = some x) (hy : side y = side x ++ more) :
    relatives side (l.set i y) e = relatives side l e ++ if e = i then more else [] := by
  by_cases he : e = i
  · subst he
    have hlt := (List.getElem?_eq_some_iff.1 hx).1
    rw [relatives_eq (x := y) (by simp [hlt]), relatives_eq hx, hy, if_pos rfl]
  · rw [relatives, List.getElem?_set_ne (Ne.symm he), if_neg he, List.append_nil, relatives]

theorem relatives_set_of_eq (hx : l[i]? = some x) (hy : side y = side x) :
    relatives side (l.set i y) e = relatives side l e := by
  rw [relatives_set hx (hy.trans (List.append_nil _).symm), ite_self, List.append_nil]

/-- One child more, and one parent more. -/
structure Joined (l l' : List Expression) (child parent : ExprId) : Prop where
  children : ∀ e, relatives Expression.children l' e =
    relatives Expression.children l e ++ if e = parent then [child] else []
  parents : ∀ e, relatives Expression.parents l' e =
    relatives Expression.parents l e ++ if e = child then [parent] else []

/-- A child occurs in the children of an expression as often as the expression in the parents of the child. -/
def Mirrored (l : List Expression) : Prop :=
  ∀ p c, (relatives Expression.children l p).count c = (relatives Expression.parents l c).count p

theorem Mirrored.join (h : Mirrored l) (hj : Joined l l' child parent) : Mirrored l' := by
  intro p c
  rw [hj.children, hj.parents, List.count_append, List.count_append, h p c]
  by_cases hp : p = parent <;> by_cases hc : c = child <;> simp [hp, hc, List.count_eq_zero]

theorem Mirrored.snoc (h : Mirrored l) (hchildren : x.children = []) (hparents : x.parents = []) :
    Mirrored (l ++ [x]) := by
  intro p c
  rw [relatives_snoc hchildren, relatives_snoc hparents]
  exact h p c

/-- Relatives exist, since they have the expression among theirs. -/
theorem Mirrored.child_lt (h : Mirrored l) (hx : l[e]? = some x) {c : ExprId} (hc : c ∈ x.children) : c < l.length := by
  refine Nat.lt_of_not_le fun hle => ?_
  have hcount := h e c
  rw [relatives_eq hx, relatives_eq_nil hle, List.count_nil, List.count_eq_zero] at hcount
  exact hcount hc

theorem Mirrored.parent_lt (h : Mirrored l) (hx : l[e]? = some x) {p : ExprId} (hp : p ∈ x.parents) : p < l.length := by
  refine Nat.lt_of_not_le fun hle => ?_
  have hcount := (h p e).symm
  rw [relatives_eq hx, relatives_eq_nil hle, List.count_nil, List.count_eq_zero] at hcount
  exact hcount hp

end Relatives

/-! ## What an operation leaves -/

variable {t t' t'' : Tree} {x : Expression} {e child parent node : ExprId} {source target proxy : Proxy}
  {roots roots' : List ExprId} {links links' : List ProxyLink} {kind : ExprKind}

/-- Children and parents mirror each other, roots are all that have no parent, and transfers have their links. -/
structure Kept (t : Tree) : Prop where
  mirrored : Mirrored t.exprs
  adopted : ∀ e < t.exprs.length, relatives Expression.parents t.exprs e = [] → e ∈ t.roots
  roots : ∀ e ∈ t.roots, e < t.exprs.length
  ascending : t.roots.Pairwise (· < ·)
  once : t.links.Nodup
  linked : ∀ l, some l ∈ t.exprs.map Expression.link? → l.source ≠ l.target → l ∈ t.links

theorem kept_ofGraph (g : Graph) : (ofGraph g).Kept where
  mirrored _ _ := rfl
  adopted e he := absurd he (Nat.not_lt_zero e)
  roots := by simp [ofGraph]
  ascending := .nil
  once := List.nodup_nil
  linked := by simp [ofGraph]

theorem Kept.child_lt (h : t.Kept) (hc : t.IsChild e child) : child < t.exprs.length := by
  obtain ⟨x, hx, hmem⟩ := hc
  exact h.mirrored.child_lt hx hmem

/-- What an operation leaves that adds these roots and links. -/
structure Grows (t t' : Tree) (roots : List ExprId) (links : List ProxyLink) : Prop where
  kept : t.Kept → t'.Kept
  graph : t'.graph = t.graph
  length : t.exprs.length ≤ t'.exprs.length
  roots : t'.roots = t.roots ++ roots
  links : ∀ l, l ∈ t'.links ↔ l ∈ t.links ∨ l ∈ links

namespace Grows

theorem refl (t : Tree) : t.Grows t [] [] :=
  ⟨fun h => h, rfl, Nat.le_refl _, (List.append_nil _).symm, by simp⟩

theorem trans (h : t.Grows t' roots links) (h' : t'.Grows t'' roots' links') :
    t.Grows t'' (roots ++ roots') (links ++ links') where
  kept hkept := h'.kept (h.kept hkept)
  graph := h'.graph.trans h.graph
  length := Nat.le_trans h.length h'.length
  roots := by rw [h'.roots, h.roots, List.append_assoc]
  links l := by rw [h'.links, h.links, List.mem_append, or_assoc]

end Grows

/-! ## Single operations -/

-- An operation may fault only if `B`, which is decided by the use: it need not be excluded, or what is named exists.
variable {B : Prop}

/-- Attaching joins two expressions that exist and changes nothing else. -/
theorem attach_cases (h : t.attach child parent = .ok t') : ∃ exprs, t' = { t with exprs } ∧
    Joined t.exprs exprs child parent ∧ exprs.map Expression.link? = t.exprs.map Expression.link? := by
  obtain ⟨above, habove, h⟩ := bind_eq_ok.1 h
  obtain ⟨below, hbelow, h⟩ := bind_eq_ok.1 h
  rw [expr_eq_ok] at habove
  rw [get_eq_ok] at hbelow
  cases h
  refine ⟨_, rfl, ⟨fun e => ?_, fun e => ?_⟩, ?_⟩
  · exact (relatives_set_of_eq hbelow (by rfl)).trans (relatives_set habove (by rfl))
  · refine (relatives_set hbelow (by rfl)).trans ?_
    rw [relatives_set_of_eq habove (by rfl)]
  · have hlink {l : List Expression} {i : ExprId} {x y : Expression} (hx : l[i]? = some x) (hy : y.link? = x.link?) :
        (l.set i y).map Expression.link? = l.map Expression.link? := by
      obtain ⟨hlt, rfl⟩ := List.getElem?_eq_some_iff.1 hx
      rw [List.map_set, hy, ← List.getElem_map Expression.link?]
      exact List.set_getElem_self (by simpa using hlt)
    exact (hlink hbelow (by rfl)).trans (hlink habove (by rfl))

/-- Attaching adds no root and no link. -/
theorem ends_attach (h : B ∨ child < t.exprs.length ∧ parent < t.exprs.length) :
    Ends (fun _ => B) (t.attach child parent) fun t' => t.Grows t' [] [] := by
  refine ends_of_exists (h.imp_right ?_) fun t' hattach => ?_
  · rintro ⟨hchild, hparent⟩
    obtain ⟨above, habove⟩ := exists_expr hparent
    have hlt : child < (t.exprs.set parent { above with children := above.children ++ [child] }).length := by
      rw [List.length_set]
      exact hchild
    exact ⟨_, bind_eq_ok.2 ⟨above, expr_eq_ok.2 habove, bind_eq_ok.2
      ⟨_, get_eq_ok.2 (List.getElem?_eq_getElem hlt), rfl⟩⟩⟩
  · obtain ⟨exprs, rfl, hjoined, hlinks⟩ := attach_cases hattach
    have hlength : exprs.length = t.exprs.length := by simpa using congrArg List.length hlinks
    refine ⟨fun hkept => ?_, rfl, Nat.le_of_eq hlength.symm, (List.append_nil _).symm, by simp⟩
    refine ⟨hkept.mirrored.join hjoined, fun e he hnone => ?_, fun e he => hlength ▸ hkept.roots e he, hkept.ascending,
      hkept.once, hlinks ▸ hkept.linked⟩
    rw [hjoined.parents] at hnone
    exact hkept.adopted e (hlength ▸ he) (List.append_eq_nil_iff.1 hnone).1

theorem exists_add (x : Expression) {parent : Option ExprId} (hparent : ∀ p ∈ parent, p < t.exprs.length) :
    ∃ r, t.add x parent = .ok r := by
  cases parent with
  | none => exact ⟨_, rfl⟩
  | some parent =>
    obtain ⟨above, habove⟩ := exists_expr (hparent parent rfl)
    exact ⟨_, add_below habove x⟩

/-- An expression without relatives below a parent. Its link is there already, if it needs one. -/
theorem grows_add_below {id : ExprId} (hchildren : x.children = []) (hparents : x.parents = [])
    (hlink : ∀ l, x.link? = some l → l.source ≠ l.target → l ∈ t.links) (h : t.add x (some parent) = .ok (t', id)) :
    t.Grows t' [] [] ∧ id < t'.exprs.length := by
  obtain ⟨t', hattach, h⟩ := bind_eq_ok.1 h
  cases h
  obtain ⟨exprs, rfl, hjoined, hlinks⟩ := attach_cases hattach
  have hlength : exprs.length = t.exprs.length + 1 := by simpa using congrArg List.length hlinks
  have hjoined' : Joined t.exprs exprs t.exprs.length parent := by
    refine ⟨fun e => ?_, fun e => ?_⟩
    · rw [hjoined.children, relatives_snoc hchildren]
    · rw [hjoined.parents, relatives_snoc hparents]
  refine ⟨⟨fun hkept => ?_, rfl, hlength ▸ Nat.le_succ _, (List.append_nil _).symm, by simp⟩,
    hlength ▸ Nat.lt_succ_self _⟩
  refine ⟨hkept.mirrored.join hjoined', fun e he hnone => ?_, fun e he => ?_, hkept.ascending, hkept.once,
    fun l hl => ?_⟩
  · rw [hjoined'.parents] at hnone
    obtain ⟨hold, hnew⟩ := List.append_eq_nil_iff.1 hnone
    have hne : e ≠ t.exprs.length := fun heq => by simp [heq] at hnew
    have hlt : e < t.exprs.length + 1 := hlength ▸ he
    exact hkept.adopted e (Nat.lt_of_le_of_ne (Nat.le_of_lt_succ hlt) hne) hold
  · exact hlength ▸ Nat.lt_succ_of_lt (hkept.roots e he)
  · rw [hlinks, List.map_append, List.mem_append] at hl
    rcases hl with hl | hl
    · exact hkept.linked l hl
    · exact hlink l (by simpa [eq_comm] using hl)

/-- An expression without relatives and without a source, below a parent or as a root. -/
theorem ends_add {parent : Option ExprId} (hchildren : x.children = []) (hparents : x.parents = [])
    (hsource : x.source = none) (h : B ∨ ∀ p ∈ parent, p < t.exprs.length) :
    Ends (fun _ => B) (t.add x parent) fun r =>
      t.Grows r.1 (if parent.isNone then [r.2] else []) [] ∧ r.2 < r.1.exprs.length := by
  refine ends_of_exists (h.imp_right (exists_add x)) ?_
  rintro ⟨t', id⟩ h
  have hlink : x.link? = none := by rw [Expression.link?, hsource]; rfl
  cases parent with
  | some parent => exact grows_add_below hchildren hparents (by simp [hlink]) h
  | none =>
    cases h
    refine ⟨⟨fun hkept => ?_, rfl, by simp, rfl, by simp⟩, by simp⟩
    refine ⟨hkept.mirrored.snoc hchildren hparents, fun e he hnone => ?_, ?_, ?_, hkept.once, fun l hl => ?_⟩
    · rw [relatives_snoc hparents] at hnone
      rw [List.length_append, List.length_singleton, Nat.lt_succ_iff_lt_or_eq] at he
      rcases he with he | rfl
      · exact List.mem_append_left _ (hkept.adopted e he hnone)
      · exact List.mem_append_right _ (List.mem_singleton.2 rfl)
    · rw [List.length_append, List.length_singleton]
      exact List.forall_mem_append.2 ⟨fun e he => Nat.lt_succ_of_lt (hkept.roots e he),
        List.forall_mem_singleton.2 (Nat.lt_succ_self _)⟩
    · refine List.pairwise_append.2 ⟨hkept.ascending, List.pairwise_singleton _ _, fun e he e' he' => ?_⟩
      rw [List.mem_singleton.1 he']
      exact hkept.roots e he
    · rw [List.map_append, List.mem_append] at hl
      rcases hl with hl | hl
      · exact hkept.linked l hl
      · simp [hlink] at hl

theorem ends_addFor {parent : Option ExprId} (h : B ∨ t.graph.WellFormed ∧
      (∀ p ∈ parent, p < t.exprs.length) ∧ proxy.isKnown t.graph = true) :
    Ends (fun _ => B) (t.addFor kind parent proxy) fun r =>
      t.Grows r.1 (if parent.isNone then [r.2] else []) [] ∧ r.2 < r.1.exprs.length :=
  ends_bind.2 (ends_of_exists (h.imp_right fun h => h.1.exists_path_of_isKnown h.2.2) fun _ _ =>
    ends_add rfl rfl rfl (h.imp_right fun h => h.2.1))

/-- Recording a link changes the links only, to ones without repetition, and the expressions do not matter for it. -/
theorem addLink_cases (t : Tree) (source target : Proxy) :
    ∃ links, (∀ exprs, addLink { t with exprs } source target = { t with exprs, links }) ∧
      (∀ l, l ∈ links ↔ l ∈ t.links ∨ l ∈ [ProxyLink.mk source target]) ∧ (t.links.Nodup → links.Nodup) := by
  by_cases hmem : ProxyLink.mk source target ∈ t.links
  · refine ⟨t.links, fun exprs => if_pos hmem, fun l => ?_, id⟩
    rw [List.mem_singleton]
    exact ⟨.inl, fun h => h.elim id fun heq => heq ▸ hmem⟩
  · refine ⟨t.links ++ [ProxyLink.mk source target], fun exprs => if_neg hmem, fun l => List.mem_append,
      fun hnodup => ?_⟩
    refine List.nodup_append.2 ⟨hnodup, List.pairwise_singleton _ _, ?_⟩
    rintro l hl l' hl' rfl
    exact hmem (List.mem_singleton.1 hl' ▸ hl)

theorem grows_addLink (t : Tree) (source target : Proxy) : t.Grows (t.addLink source target) [] [⟨source, target⟩] := by
  obtain ⟨links, heq, hlinks, hnodup⟩ := addLink_cases t source target
  rw [show t.addLink source target = { t with links } from heq t.exprs]
  refine ⟨fun hkept => ?_, rfl, Nat.le_refl _, (List.append_nil _).symm, hlinks⟩
  exact ⟨hkept.mirrored, hkept.adopted, hkept.roots, hkept.ascending, hnodup hkept.once, fun l hl hne =>
    (hlinks l).2 (.inl (hkept.linked l hl hne))⟩

/-- It makes no difference whether a link is recorded before or after an expression. -/
theorem add_addLink {id : ExprId} (h : t.add x (some parent) = .ok (t', id)) :
    (t.addLink source target).add x (some parent) = .ok (t'.addLink source target, id) := by
  obtain ⟨t₁, hattach, h⟩ := bind_eq_ok.1 h
  obtain ⟨above, habove, hattach⟩ := bind_eq_ok.1 hattach
  obtain ⟨below, hbelow, hattach⟩ := bind_eq_ok.1 hattach
  cases hattach
  cases h
  obtain ⟨links, heq, -⟩ := addLink_cases t source target
  rw [show t.addLink source target = { t with links } from heq t.exprs]
  refine bind_eq_ok.2 ⟨_, bind_eq_ok.2 ⟨above, habove, bind_eq_ok.2 ⟨below, hbelow, rfl⟩⟩, ?_⟩
  exact congrArg (fun grown => Except.ok (grown, t.exprs.length)) (heq _).symm

/-- The link of a transfer between two pins; there is none from a pin to itself. -/
def transferLinks (source target : Proxy) : List ProxyLink := if source = target then [] else [⟨source, target⟩]

theorem ends_addTransfer (h : B ∨ parent < t.exprs.length) :
    Ends (fun _ => B) (t.addTransfer kind parent source target) fun r =>
      t.Grows r.1 [] (transferLinks source target) ∧ r.2 < r.1.exprs.length := by
  refine ends_of_exists (h.imp_right fun hparent => ?_) ?_
  · have hparent : ∀ p ∈ some parent, p < t.exprs.length := by simpa using hparent
    obtain ⟨r, hadd⟩ := exists_add { kind, name := kind.label, proxy := some target, source := some source } hparent
    exact ⟨_, bind_eq_ok.2 ⟨r, hadd, rfl⟩⟩
  rintro ⟨t', id⟩ h
  unfold transferLinks
  obtain ⟨⟨t₁, id₁⟩, hadd, h⟩ := bind_eq_ok.1 h
  by_cases heq : source = target
  · simp only [if_pos heq] at h ⊢
    cases h
    refine grows_add_below rfl rfl (fun l hl hne => ?_) hadd
    cases hl
    exact absurd heq hne
  · simp only [if_neg heq] at h ⊢
    cases h
    have hlink := t.grows_addLink source target
    obtain ⟨hgrows, hid⟩ := grows_add_below rfl rfl (fun l hl _ => by
      cases hl
      exact (hlink.links _).2 (.inr (List.mem_singleton.2 rfl))) (add_addLink hadd)
    exact ⟨hlink.trans hgrows, hid⟩

/-! ## Operations made of several -/

theorem ends_addVars {pins : List PinId} (h : B ∨ t.graph.WellFormed ∧ parent < t.exprs.length ∧
      ∀ p ∈ pins, (proxy.withPin p).isKnown t.graph = true) :
    Ends (fun _ => B) (t.addVars parent proxy pins) fun t' => t.Grows t' [] [] := by
  induction pins generalizing t with
  | nil => exact Grows.refl t
  | cons p pins ih =>
    refine ends_bind.2 ((ends_addFor (h.imp_right fun h => ?_)).mono ?_)
    · exact ⟨h.1, by simpa using h.2.1, h.2.2 p (by simp)⟩
    · rintro ⟨t₁, id⟩ ⟨hgrows, -⟩
      refine (ih (t := t₁) (h.imp_right fun h => ?_)).mono fun t' h' => hgrows.trans h'
      rw [hgrows.graph]
      exact ⟨h.1, Nat.lt_of_lt_of_le h.2.1 hgrows.length, fun q hq => h.2.2 q (by simp [hq])⟩

theorem ends_addNodeWithPins {node : Proxy} (h : B ∨ t.graph.WellFormed ∧
      parent < t.exprs.length ∧ node.isKnown t.graph = true) :
    Ends (fun _ => B) (t.addNodeWithPins kind parent node) fun r => t.Grows r.1 [] [] := by
  refine ends_bind.2 ((ends_addFor (h.imp_right fun h => ⟨h.1, by simpa using h.2.1, h.2.2⟩)).mono ?_)
  rintro ⟨t₁, id⟩ ⟨hgrows, hid⟩
  rw [← hgrows.graph] at h
  refine ends_bind.2 (ends_of_exists (h.imp_right fun h => ?_) fun n hn => ?_)
  · obtain ⟨n, owner, hn, -⟩ := h.1.exists_nodeId_of_isKnown h.2.2
    exact ⟨n, hn⟩
  refine ends_bind.2 (ends_of_exists (h.imp_right fun h => ?_) fun owner howner => ?_)
  · obtain ⟨n', owner, hn', howner⟩ := h.1.exists_nodeId_of_isKnown h.2.2
    cases hn.symm.trans hn'
    exact ⟨owner, Graph.node_eq_ok.2 howner⟩
  have hpins := h.imp_right fun h => h.1.exists_pinsBelow (Graph.node_eq_ok.1 howner)
  refine ends_bind.2 (ends_of_exists (hpins.imp_right fun h => h.imp fun _ => And.left) fun pins heq => ?_)
  refine ends_bind.2 ((ends_addVars ?_).mono fun t₂ hgrows₂ => hgrows.trans hgrows₂)
  rcases h with hB | h
  · exact .inl hB
  refine hpins.imp_right ?_
  rintro ⟨_, hlisted, hpre⟩
  cases heq.symm.trans hlisted
  refine ⟨h.1, hid, fun p hp => ?_⟩
  obtain ⟨pin, hpin⟩ := hpre.exists_pin p hp
  exact Bool.and_eq_true_iff.2 ⟨by simp [Proxy.withPin, hpin], (Bool.and_eq_true_iff.1 h.2.2).2⟩

theorem ends_addValueFor {pin : Proxy} (h : B ∨ t.graph.WellFormed ∧ t.Kept ∧ node < t.exprs.length ∧
      pin.isKnown t.graph = true) :
    Ends (fun _ => B) (t.addValueFor node pin) fun r => t.Grows r.1 [] [] ∧ (B ∨ r.2 < r.1.exprs.length) := by
  refine ends_bind.2 (ends_of_exists (h.imp_right fun h => ?_) fun found hfound => ?_)
  · obtain ⟨x, hx⟩ := exists_expr h.2.2.1
    unfold valueFor
    rw [children_eq hx, ok_bind]
    refine (exists_findM? fun c hc => ?_).imp fun _ h => h.1
    obtain ⟨y, hy⟩ := exists_expr (h.2.1.child_lt ⟨x, hx, hc⟩)
    rw [expr_eq_ok.2 hy]
    exact ⟨_, rfl⟩
  cases found with
  | some var =>
    refine ⟨.refl t, h.imp_right fun h => ?_⟩
    obtain ⟨children, hchildren, hfound⟩ := bind_eq_ok.1 hfound
    exact h.2.1.child_lt (isChild_of_mem hchildren (mem_of_findM? hfound).1)
  | none =>
    refine (ends_addFor (h.imp_right fun h => ?_)).mono fun r hr => ⟨hr.1, .inr hr.2⟩
    exact ⟨h.1, by simpa using h.2.2.1, h.2.2.2⟩

theorem ends_addFeed {feeder : ExprId} (h : B ∨ t.graph.WellFormed ∧ t.Kept ∧ node < t.exprs.length ∧
      feeder < t.exprs.length ∧ target.isKnown t.graph = true ∧ source.isKnown t.graph = true) :
    Ends (fun _ => B) (t.addFeed node target feeder source) fun r =>
      t.Grows r.1 [] (transferLinks source target) := by
  refine ends_bind.2 ((ends_addValueFor (h.imp_right fun h => ⟨h.1, h.2.1, h.2.2.1, h.2.2.2.2.1⟩)).mono ?_)
  rintro ⟨t₁, var⟩ ⟨hgrows₁, hvar⟩
  refine ends_bind.2 ((ends_addTransfer hvar).mono ?_)
  rintro ⟨t₂, assign⟩ ⟨hgrows₂, hassign⟩
  refine ends_bind.2 ((ends_add rfl rfl rfl (.inr (by simpa using hassign))).mono ?_)
  rintro ⟨t₃, cache⟩ ⟨hgrows₃, hcache⟩
  have hgrows := hgrows₁.trans (hgrows₂.trans hgrows₃)
  have hfeeder := h.imp_right fun h => Nat.lt_of_lt_of_le h.2.2.2.1 hgrows.length
  refine ends_bind.2 ((ends_attach (hfeeder.imp_right fun h => ⟨h, hcache⟩)).mono fun t₄ hgrows₄ => ?_)
  refine ends_bind.2 ((ends_addFor (h.imp_right fun h => ?_)).mono ?_)
  · rw [(hgrows.trans hgrows₄).graph]
    exact ⟨h.1, by simpa using Nat.lt_of_lt_of_le hcache hgrows₄.length, h.2.2.2.2.2⟩
  · rintro ⟨t₅, last⟩ ⟨hgrows₅, -⟩
    have hall : t.Grows t₅ [] (transferLinks source target) := by simpa using (hgrows.trans hgrows₄).trans hgrows₅
    exact hall

theorem ends_addArm {pinName : String} (h : B ∨ t.Kept ∧ node < t.exprs.length) :
    Ends (fun _ => B) (t.addArm node pinName) fun r => t.Grows r.1 [] [] := by
  refine ends_bind.2 (ends_of_exists (h.imp_right fun h => ?_) fun block _ => ?_)
  · exact (exists_blockForPin h.1.child_lt h.2 pinName).imp fun _ => And.left
  cases block with
  | some block => exact Grows.refl t
  | none =>
    refine ends_bind.2 (ends_of_exists (h.imp_right fun h => ?_) fun var hvar => ?_)
    · exact (exists_varForPin h.1.child_lt h.2 pinName).imp fun _ => And.left
    cases var with
    | none => exact Grows.refl t
    | some var =>
      refine ends_bind.2 ((ends_add rfl rfl rfl (h.imp_right fun h => ?_)).mono fun r hr => hr.1)
      simpa using h.1.child_lt (isChild_of_varForPin hvar).1

/-! ## Sequences of operations -/

end Tree

/-- A call that changes a tree. -/
inductive TreeEdit where
  | defineFunction (f : FunctionDefinition)
  | add (kind : ExprKind) (name : String) (parent : Option ExprId) (proxy : Option Proxy)
  | attach (child parent : ExprId)
  | addEntry (event : Proxy)
  | addBlock (parent : Option ExprId) (name : String)
  /-- A node, or a value for a pin. -/
  | addFor (kind : ExprKind) (parent : ExprId) (proxy : Proxy)
  | addNodeWithPins (kind : ExprKind) (parent : ExprId) (node : Proxy)
  | assign (parent : ExprId) (source target : Proxy)
  | copy (parent : ExprId) (source target : Proxy)
  | addFeed (node : ExprId) (pin : Proxy) (feeder : ExprId) (feederPin : Proxy)
  | addArm (node : ExprId) (pinName : String)
  | addCachedValue (parent : ExprId)
  | addExit (parent : ExprId)
  | addLink (source target : Proxy)

namespace TreeEdit

/-- Whether the call adds an expression without a parent. -/
def isParentless : TreeEdit → Bool
  | add _ _ parent _ => parent.isNone
  | addEntry _ => true
  | addBlock parent _ => parent.isNone
  | _ => false

/-- The links that the call stands for. -/
def links : TreeEdit → List ProxyLink
  | assign _ source target => Tree.transferLinks source target
  | copy _ source target => Tree.transferLinks source target
  | addFeed _ pin _ feederPin => Tree.transferLinks feederPin pin
  | addLink source target => [⟨source, target⟩]
  | _ => []

/-- Whether the call names expressions of the tree and proxies of nodes and pins of its graph. -/
def refers (t : Tree) : TreeEdit → Bool
  | defineFunction _ => true
  | add _ _ parent proxy => parent.all (· < t.exprs.length) && proxy.all (Proxy.isKnown t.graph)
  | attach child parent => child < t.exprs.length && parent < t.exprs.length
  | addEntry event => event.isKnown t.graph
  | addBlock parent _ => parent.all (· < t.exprs.length)
  | addFor _ parent proxy => parent < t.exprs.length && proxy.isKnown t.graph
  | addNodeWithPins _ parent node => parent < t.exprs.length && node.isKnown t.graph
  | assign parent source target => parent < t.exprs.length && source.isKnown t.graph && target.isKnown t.graph
  | copy parent source target => parent < t.exprs.length && source.isKnown t.graph && target.isKnown t.graph
  | addFeed node pin feeder feederPin =>
    node < t.exprs.length && feeder < t.exprs.length && pin.isKnown t.graph && feederPin.isKnown t.graph
  | addArm node _ => node < t.exprs.length
  | addCachedValue parent => parent < t.exprs.length
  | addExit parent => parent < t.exprs.length
  | addLink source target => source.isKnown t.graph && target.isKnown t.graph

/-- The roots that the call adds, if it gives this answer. -/
def roots (edit : TreeEdit) (answer : Option ExprId) : List ExprId := if edit.isParentless then answer.toList else []

end TreeEdit

namespace Tree

variable {t t' : Tree} {edits : List TreeEdit} {e : TreeEdit} {answer : Option ExprId}
  {answers : List (Option ExprId)}

/-- What an operation that makes an expression answers. -/
def answering (made : Checked (Tree × ExprId)) : Checked (Tree × Option ExprId) := Prod.map id some <$> made

/-- Makes a call. Answers the id that it gives. -/
def edit (t : Tree) : TreeEdit → Checked (Tree × Option ExprId)
  | .defineFunction f => .ok (t.defineFunction f, none)
  | .add kind name parent proxy => answering (t.add { kind, name, proxy } parent)
  | .attach child parent => (·, none) <$> t.attach child parent
  | .addEntry event => answering (t.addEntry event)
  | .addBlock parent name => answering (t.addBlock parent name)
  | .addFor kind parent proxy => answering (t.addFor kind (some parent) proxy)
  | .addNodeWithPins kind parent node => answering (t.addNodeWithPins kind parent node)
  | .assign parent source target => answering (t.addTransfer .assign parent source target)
  | .copy parent source target => answering (t.addTransfer .copy parent source target)
  | .addFeed node pin feeder feederPin => answering (t.addFeed node pin feeder feederPin)
  | .addArm node pinName => t.addArm node pinName
  | .addCachedValue parent => answering (t.addCachedValue parent)
  | .addExit parent => answering (t.addExit parent)
  | .addLink source target => .ok (t.addLink source target, none)

/-- Makes the calls in order. Answers the ids that they give. -/
def build (t : Tree) : List TreeEdit → Checked (Tree × List (Option ExprId))
  | [] => .ok (t, [])
  | e :: edits => do
    let (t, answer) ← t.edit e
    let (t, answers) ← t.build edits
    return (t, answer :: answers)

/-- Whether each of the calls refers to what exists when it is made. -/
def admits (t : Tree) : List TreeEdit → Bool
  | [] => true
  | e :: edits => e.refers t && match t.edit e with
    | .ok (t, _) => t.admits edits
    | .error _ => true

theorem ends_answering {F : Fault → Prop} {made : Checked (Tree × ExprId)} {Q : Tree × Option ExprId → Prop}
    (h : Ends F made fun r => Q (r.1, some r.2)) : Ends F (answering made) Q := by
  cases made with
  | error fault => exact h
  | ok r => exact h

/-- A call leaves the books in order, with its roots and links. It is made if it refers to what exists. -/
theorem ends_edit {B : Prop} (h : B ∨ t.graph.WellFormed ∧ t.Kept ∧ e.refers t = true) :
    Ends (fun _ => B) (t.edit e) fun r => t.Grows r.1 (e.roots r.2) e.links := by
  cases e <;> simp only [TreeEdit.refers, Bool.and_eq_true, decide_eq_true_eq, Option.all_eq_true] at h
  case defineFunction f =>
    exact ⟨fun hkept => ⟨hkept.mirrored, hkept.adopted, hkept.roots, hkept.ascending, hkept.once, hkept.linked⟩, rfl,
      Nat.le_refl _, (List.append_nil _).symm, by simp [TreeEdit.links, defineFunction]⟩
  case add kind name parent proxy =>
    exact ends_answering ((ends_add rfl rfl rfl (h.imp_right fun h => h.2.2.1)).mono fun _ => And.left)
  case attach child parent =>
    have hends := ends_attach (t := t) (h.imp_right fun h => h.2.2)
    show Ends _ ((·, none) <$> t.attach child parent) _
    cases hattach : t.attach child parent with
    | error fault => rwa [hattach] at hends
    | ok t' => rwa [hattach] at hends
  case addEntry event =>
    show Ends _ (answering (t.addFor .entry none event)) _
    exact ends_answering ((ends_addFor (h.imp_right fun h => ⟨h.1, by simp, h.2.2⟩)).mono fun _ => And.left)
  case addBlock parent name =>
    exact ends_answering ((ends_add rfl rfl rfl (h.imp_right fun h => h.2.2)).mono fun _ => And.left)
  case addFor kind parent proxy =>
    exact ends_answering
      ((ends_addFor (h.imp_right fun h => ⟨h.1, by simpa using h.2.2.1, h.2.2.2⟩)).mono fun _ => And.left)
  case addNodeWithPins kind parent node =>
    exact ends_answering (ends_addNodeWithPins (h.imp_right fun h => ⟨h.1, h.2.2⟩))
  case assign parent source target =>
    exact ends_answering ((ends_addTransfer (h.imp_right fun h => h.2.2.1.1)).mono fun _ => And.left)
  case copy parent source target =>
    exact ends_answering ((ends_addTransfer (h.imp_right fun h => h.2.2.1.1)).mono fun _ => And.left)
  case addFeed node pin feeder feederPin =>
    exact ends_answering (ends_addFeed (h.imp_right fun h =>
      ⟨h.1, h.2.1, h.2.2.1.1.1, h.2.2.1.1.2, h.2.2.1.2, h.2.2.2⟩))
  case addArm node pinName => exact ends_addArm (h.imp_right fun h => h.2)
  case addCachedValue parent =>
    exact ends_answering ((ends_add rfl rfl rfl (h.imp_right fun h => by simpa using h.2.2)).mono fun _ => And.left)
  case addExit parent =>
    exact ends_answering ((ends_add rfl rfl rfl (h.imp_right fun h => by simpa using h.2.2)).mono fun _ => And.left)
  case addLink source target => exact t.grows_addLink source target

theorem grows_edit (h : t.edit e = .ok (t', answer)) : t.Grows t' (e.roots answer) e.links :=
  (ends_edit (.inl trivial)).of_ok h

/-- The roots of a sequence of calls with their answers. -/
def parentless (edits : List TreeEdit) (answers : List (Option ExprId)) : List ExprId :=
  (List.zipWith TreeEdit.roots edits answers).flatten

theorem build_cons_eq_ok (h : t.build (e :: edits) = .ok (t', answers)) :
    ∃ t₁ answer rest, t.edit e = .ok (t₁, answer) ∧
      t₁.build edits = .ok (t', rest) ∧ answers = answer :: rest := by
  obtain ⟨⟨t₁, answer⟩, hedit, h⟩ := bind_eq_ok.1 h
  obtain ⟨⟨t₂, rest⟩, hbuild, h⟩ := bind_eq_ok.1 h
  cases h
  exact ⟨t₁, answer, rest, hedit, hbuild, rfl⟩

theorem grows_build (h : t.build edits = .ok (t', answers)) :
    t.Grows t' (parentless edits answers) (edits.flatMap TreeEdit.links) := by
  induction edits generalizing t answers with
  | nil =>
    cases h
    exact .refl _
  | cons e edits ih =>
    obtain ⟨t₁, answer, rest, hedit, hbuild, rfl⟩ := build_cons_eq_ok h
    exact (grows_edit hedit).trans (ih hbuild)

/-- The calls of each beginning of an admitted sequence are made. -/
theorem exists_build (hg : t.graph.WellFormed) (hkept : t.Kept) {front : List TreeEdit}
    (h : t.admits edits = true) (hfront : front <+: edits) : ∃ t' answers, t.build front = .ok (t', answers) := by
  induction front generalizing t edits with
  | nil => exact ⟨t, [], rfl⟩
  | cons e front ih =>
    obtain ⟨rest, rfl⟩ := hfront
    obtain ⟨hrefers, hrest⟩ := Bool.and_eq_true_iff.1 h
    obtain ⟨⟨t₁, answer⟩, hedit, hgrows⟩ := (ends_edit (.inr ⟨hg, hkept, hrefers⟩)).exists_ok
    simp only [hedit] at hrest
    obtain ⟨t', answers, hbuild⟩ := ih (hgrows.graph.symm ▸ hg) (hgrows.kept hkept) hrest (List.prefix_append _ _)
    exact ⟨t', answer :: answers, bind_eq_ok.2 ⟨_, hedit, bind_eq_ok.2 ⟨_, hbuild, rfl⟩⟩⟩

/-- What a tree records of the calls that built it and of their answers. -/
structure Recorded (t : Tree) (edits : List TreeEdit) (answers : List (Option ExprId)) : Prop where
  children : ∀ e x, t.expr? e = some x → ∀ c ∈ x.children, c < t.exprs.length
  parents : ∀ e x, t.expr? e = some x → ∀ p ∈ x.parents, p < t.exprs.length
  mirrored : ∀ p x c y, t.expr? p = some x → t.expr? c = some y → x.children.count c = y.parents.count p
  roots : t.roots = parentless edits answers
  rooted : ∀ e ∈ t.roots, e < t.exprs.length
  ascending : t.roots.Pairwise (· < ·)
  adopted : ∀ e x, t.expr? e = some x → x.parents = [] → e ∈ t.roots
  once : t.links.Nodup
  linked : ∀ e x source target, t.expr? e = some x → x.source = some source → x.proxy = some target →
    source ≠ target → ⟨source, target⟩ ∈ t.links
  links : ∀ l, l ∈ t.links ↔ l ∈ edits.flatMap TreeEdit.links

theorem recorded_of_build {g : Graph} (h : (ofGraph g).build edits = .ok (t, answers)) :
    t.Recorded edits answers := by
  have hgrows := grows_build h
  have hkept := hgrows.kept (kept_ofGraph g)
  exact {
    children := fun e x hx c hc => hkept.mirrored.child_lt hx hc
    parents := fun e x hx p hp => hkept.mirrored.parent_lt hx hp
    mirrored := fun p x c y hx hy => by
      simpa [relatives_eq (l := t.exprs) hx, relatives_eq (l := t.exprs) hy] using hkept.mirrored p c
    roots := hgrows.roots
    rooted := hkept.roots
    ascending := hkept.ascending
    adopted := fun e x hx hnone => hkept.adopted e (lt_of_expr? hx) ((relatives_eq hx).trans hnone)
    once := hkept.once
    linked := fun e x source target hx hsource htarget hne => by
      refine hkept.linked ⟨source, target⟩ (List.mem_map.2 ⟨x, List.mem_of_getElem? hx, ?_⟩) hne
      rw [Expression.link?, hsource, htarget]
      rfl
    links := fun l => by simpa [ofGraph] using hgrows.links l }

/-- Whatever calls are made, the tree they leave has relatives that exist and know each other equally often,
the roots that were made without a parent, in order, and the links of its transfers, once each. In a graph
without structural issues calls that refer to what exists are all made, so this holds after each of them. -/
theorem build_recorded (g : Graph) (edits : List TreeEdit) :
    (∀ t answers, (ofGraph g).build edits = .ok (t, answers) → t.Recorded edits answers) ∧
      (g.structureIssues = [] → (ofGraph g).admits edits = true → ∀ front, front <+: edits →
        ∃ t answers, (ofGraph g).build front = .ok (t, answers) ∧ t.Recorded front answers) := by
  refine ⟨fun t answers h => recorded_of_build h, fun hissues hadmits front hfront => ?_⟩
  obtain ⟨t, answers, hbuild⟩ := exists_build (t := ofGraph g) (Graph.wellFormed_of_structureIssues hissues)
    (kept_ofGraph g) hadmits hfront
  exact ⟨t, answers, hbuild, recorded_of_build hbuild⟩

/-- A node that makes a value and a node that uses it. -/
def makeAndUse : Graph where
  nodes :=
    [{ name := "Begin", kind := .event "Begin" }, { name := "Make", kind := .unit "Make", pins := [0] },
      { name := "Use", kind := .unit "Use", pins := [1, 2] }]
  pins :=
    [{ node := 1, name := "Value", direction := .output, typeName := "float" },
      { node := 2, name := "Done", direction := .inOut, typeName := "ExecuteContext" },
      { node := 2, name := "Value", direction := .input, typeName := "float" }]

/-- Feeds a node twice by one that is also attached to itself, with a block below the first and one beside. -/
def feedTwice : List TreeEdit :=
  [.addEntry ⟨[], .node 0⟩, .addNodeWithPins .call 0 ⟨[], .node 2⟩, .addFor .call 0 ⟨[], .node 1⟩,
    .addFeed 1 ⟨[], .pin 2⟩ 4 ⟨[], .pin 0⟩, .addFeed 1 ⟨[], .pin 2⟩ 4 ⟨[], .pin 0⟩, .attach 4 4, .addArm 1 "Done",
    .addArm 1 "Done", .addBlock none "Rest"]

theorem build_recorded_feedTwice : makeAndUse.structureIssues = [] ∧ (ofGraph makeAndUse).admits feedTwice = true ∧
    ∃ t answers, (ofGraph makeAndUse).build feedTwice = .ok (t, answers) ∧ t.Recorded feedTwice answers := by
  have hissues : makeAndUse.structureIssues = [] := by decide
  have hadmits : (ofGraph makeAndUse).admits feedTwice = true := by decide +kernel
  exact ⟨hissues, hadmits, (build_recorded makeAndUse feedTwice).2 hissues hadmits _ (List.prefix_refl _)⟩

-- The feeder has a parent for each time that it was attached, and both feeds share one link.
example : ((ofGraph makeAndUse).build feedTwice).toOption.map
    (fun r => (r.2, r.1.roots, (r.1.expr? 4).map Expression.parents, r.1.links)) =
      some ([some 0, some 1, some 4, some 5, some 8, none, some 11, some 11, some 12], [0, 12], some [0, 6, 9, 4],
        [⟨⟨[], .pin 0⟩, ⟨[], .pin 2⟩⟩]) := by
  decide +kernel

end Tree
end NodeGraph
