import NodeGraph.Proofs.Tree.Valid
import Mathlib.Logic.Relation

/-!
# Groups of shared pins

The groups of a sharing are the connected components of the links it was made from, each listed in
ascending order. One link is the step (`Partitions.join`), a list of links the run
(`partitions_ofLinks`); `group_ofTree` says it of the shareable links of a tree, with the least proxy
of a group as its representative.
-/
namespace NodeGraph

/-! ## The order of proxies -/

namespace GraphRef

variable {a b : Nat}

@[simp] theorem compare_node_node : Ord.compare (node a) (node b) = Ord.compare a b := rfl

@[simp] theorem compare_node_pin : Ord.compare (node a) (pin b) = .lt := rfl

@[simp] theorem compare_pin_node : Ord.compare (pin a) (node b) = .gt := rfl

@[simp] theorem compare_pin_pin : Ord.compare (pin a) (pin b) = Ord.compare a b := rfl

instance : Std.TransOrd GraphRef where
  eq_swap {a b} := by cases a <;> cases b <;> simp [Nat.compare_swap]
  isLE_trans {a b c} hab hbc := by
    cases a <;> cases b <;> cases c <;> simp [Nat.isLE_compare] at * <;> omega

instance : Std.LawfulEqOrd GraphRef where
  compare_self {a} := by cases a <;> simp
  eq_of_compare {a b} h := by cases a <;> cases b <;> simp_all

end GraphRef

namespace Proxy

instance : Std.TransOrd Proxy :=
  inferInstanceAs (Std.TransCmp (compareLex (compareOn Proxy.callStack) (compareOn Proxy.target)))

instance : Std.LawfulEqOrd Proxy where
  eq_of_compare {a b} h := by
    obtain ⟨hs, ht⟩ := Ordering.then_eq_eq.1 h
    cases a
    cases b
    cases Std.LawfulEqCmp.eq_of_compare hs
    cases Std.LawfulEqCmp.eq_of_compare ht
    rfl

theorem compare_swap (a b : Proxy) : compare a b = (compare b a).swap := Std.OrientedOrd.eq_swap

/-- Of two proxies in strict order, the other order does not hold and they differ. -/
theorem ne_of_lt {a b : Proxy} (h : compare a b = .lt) : a ≠ b := by
  rintro rfl
  rw [Std.ReflOrd.compare_self] at h
  cases h

end Proxy

/-! ## Connected proxies -/

open Relation (EqvGen)

variable {r : Proxy → Proxy → Prop} {p q a b : Proxy}

/-- One more edge connects what its two ends are connected with. -/
theorem eqvGen_insert :
    EqvGen (fun x y => r x y ∨ x = a ∧ y = b) p q ↔
      EqvGen r p q ∨ (EqvGen r a p ∨ EqvGen r b p) ∧ (EqvGen r a q ∨ EqvGen r b q) := by
  constructor
  · intro h
    induction h with
    | rel x y h =>
      rcases h with h | ⟨rfl, rfl⟩
      · exact .inl (.rel _ _ h)
      · exact .inr ⟨.inl (.refl _), .inr (.refl _)⟩
    | refl x => exact .inl (.refl x)
    | symm x y _ ih => exact ih.imp (.symm _ _) And.symm
    | trans x y z _ _ hxy hyz =>
      rcases hxy with hxy | ⟨hx, hy⟩ <;> rcases hyz with hyz | ⟨hy', hz⟩
      · exact .inl (.trans _ _ _ hxy hyz)
      · exact .inr ⟨hy'.imp (.trans _ _ _ · hxy.symm) (.trans _ _ _ · hxy.symm), hz⟩
      · exact .inr ⟨hx, hy.imp (.trans _ _ _ · hyz) (.trans _ _ _ · hyz)⟩
      · exact .inr ⟨hx, hz⟩
  · have lift {x y : Proxy} (h : EqvGen r x y) : EqvGen (fun x y => r x y ∨ x = a ∧ y = b) x y :=
      EqvGen.mono (fun _ _ => .inl) _ _ h
    have edge : EqvGen (fun x y => r x y ∨ x = a ∧ y = b) a b := .rel _ _ (.inr ⟨rfl, rfl⟩)
    rintro (h | ⟨hp | hp, hq | hq⟩)
    · exact lift h
    · exact .trans _ _ _ (lift hp).symm (lift hq)
    · exact .trans _ _ _ (lift hp).symm (.trans _ _ _ edge (lift hq))
    · exact .trans _ _ _ (lift hp).symm (.trans _ _ _ edge.symm (lift hq))
    · exact .trans _ _ _ (lift hp).symm (lift hq)

namespace Sharing

variable {s : Sharing} {l : ProxyLink} {links : List ProxyLink}

/-- The groups of `s` are the components of the graph with the edges `r`, in ascending order. -/
structure Partitions (s : Sharing) (r : Proxy → Proxy → Prop) : Prop where
  ascending : ∀ p, (s.group p).Pairwise (compare · · = .lt)
  mem_group : ∀ p q, q ∈ s.group p ↔ EqvGen r p q

theorem group_cons (g : List Proxy) (gs : List (List Proxy)) :
    group ⟨g :: gs⟩ p = if p ∈ g then g else group ⟨gs⟩ p := by
  by_cases h : p ∈ g <;> simp [group, h]

/-- A proxy keeps its group when other groups are dropped. -/
theorem group_filter {keep : List Proxy → Bool} (h : keep (s.group p)) :
    group ⟨s.groups.filter keep⟩ p = s.group p := by
  obtain ⟨gs⟩ := s
  induction gs with
  | nil => rfl
  | cons g gs ih =>
    rw [group_cons] at h ⊢
    by_cases hp : p ∈ g
    · simp only [hp, if_true] at h ⊢
      rw [List.filter_cons_of_pos h, group_cons, if_pos hp]
    · simp only [hp, if_false] at h ⊢
      cases hg : keep g with
      | true => rw [List.filter_cons_of_pos hg, group_cons, if_neg hp, ih h]
      | false => rw [List.filter_cons_of_neg (by simp [hg]), ih h]

namespace Partitions

section

variable (h : s.Partitions r)

include h

theorem symm (hq : q ∈ s.group p) : p ∈ s.group q := by
  rw [h.mem_group] at hq ⊢
  exact hq.symm

theorem self (p : Proxy) : p ∈ s.group p := (h.mem_group p p).2 (.refl p)

theorem nodup (p : Proxy) : (s.group p).Nodup :=
  (h.ascending p).imp Proxy.ne_of_lt

/-- Two groups with a common member are one list. -/
theorem group_eq (hq : q ∈ s.group p) : s.group q = s.group p := by
  have hmem (x : Proxy) : x ∈ s.group q ↔ x ∈ s.group p := by
    rw [h.mem_group] at hq ⊢
    rw [h.mem_group]
    exact ⟨.trans _ _ _ hq, .trans _ _ _ hq.symm⟩
  have hperm : (s.group q).Perm (s.group p) :=
    (List.perm_ext_iff_of_nodup (h.nodup q) (h.nodup p)).2 hmem
  refine hperm.eq_of_pairwise (fun x y _ _ hxy hyx => ?_) (h.ascending q) (h.ascending p)
  rw [Proxy.compare_swap, hyx] at hxy
  cases hxy

/-- Joining two groups gives their members one group, and leaves the others theirs. -/
theorem group_join (hl : l.target ∉ s.group l.source) (p : Proxy) :
    (s.join l).group p =
      if p ∈ s.group l.source ∨ p ∈ s.group l.target then
        (s.group l.source).merge (s.group l.target) fun a b => (compare a b).isLE
      else s.group p := by
  rw [join, if_neg hl, group_cons]
  simp only [List.mem_merge]
  split
  · rfl
  · next hp =>
    refine group_filter ?_
    have hs : l.source ∉ s.group p := fun hs => hp (.inl (h.symm hs))
    have ht : l.target ∉ s.group p := fun ht => hp (.inr (h.symm ht))
    simp [hs, ht]

/-- Two groups that differ merge into an ascending list. -/
theorem ascending_merge (hl : b ∉ s.group a) :
    ((s.group a).merge (s.group b) fun x y => (compare x y).isLE).Pairwise (compare · · = .lt) := by
  have hle (p : Proxy) : (s.group p).Pairwise fun x y => (compare x y).isLE := by
    refine (h.ascending p).imp fun hlt => ?_
    rw [hlt]
    rfl
  have htotal (x y : Proxy) : ((compare x y).isLE || (compare y x).isLE) = true := by
    rw [Proxy.compare_swap x y]
    cases compare y x <;> rfl
  have hsorted := List.pairwise_merge (fun x y z => Std.TransCmp.isLE_trans) htotal _ _ (hle a) (hle b)
  have hnodup : (s.group a ++ s.group b).Nodup := by
    refine List.nodup_append.2 ⟨h.nodup a, h.nodup b, fun x hxa y hyb hxy => hl ?_⟩
    subst hxy
    rw [← h.group_eq hxa]
    exact h.symm hyb
  have hmerged := (List.merge_perm_append fun x y => (compare x y).isLE).nodup_iff.2 hnodup
  refine (hsorted.and hmerged).imp fun {x y} ⟨hxy, hne⟩ => ?_
  cases hc : compare x y with
  | lt => rfl
  | eq => exact absurd (Std.LawfulEqOrd.eq_of_compare hc) hne
  | gt =>
    rw [hc] at hxy
    cases hxy

/-- One more link joins the components of its ends. -/
theorem join : (s.join l).Partitions fun x y => r x y ∨ x = l.source ∧ y = l.target := by
  by_cases hl : l.target ∈ s.group l.source
  · -- The ends are connected already, and the groups stay.
    have hst := (h.mem_group _ _).1 hl
    rw [Sharing.join, if_pos hl]
    refine ⟨h.ascending, fun p q => ?_⟩
    rw [h.mem_group, eqvGen_insert]
    refine ⟨.inl, ?_⟩
    rintro (hpq | ⟨hp | hp, hq | hq⟩)
    · exact hpq
    · exact .trans _ _ _ hp.symm hq
    · exact .trans _ _ _ hp.symm (.trans _ _ _ hst hq)
    · exact .trans _ _ _ hp.symm (.trans _ _ _ hst.symm hq)
    · exact .trans _ _ _ hp.symm hq
  · refine ⟨fun p => ?_, fun p q => ?_⟩
    · rw [h.group_join hl]
      split
      · exact h.ascending_merge hl
      · exact h.ascending p
    · rw [h.group_join hl, eqvGen_insert]
      split
      · next hp =>
        rw [List.mem_merge]
        simp only [h.mem_group] at hp ⊢
        refine ⟨fun hq => .inr ⟨hp, hq⟩, ?_⟩
        rintro (hpq | ⟨-, hq⟩)
        · exact hp.imp (.trans _ _ _ · hpq) (.trans _ _ _ · hpq)
        · exact hq
      · next hp =>
        simp only [h.mem_group] at hp ⊢
        refine ⟨.inl, ?_⟩
        rintro (hpq | ⟨hp', -⟩)
        · exact hpq
        · exact absurd hp' hp

/-- The representative of a proxy is in its group, before all others. -/
theorem representative_least (p : Proxy) :
    s.representative p ∈ s.group p ∧ ∀ q ∈ s.group p, (compare (s.representative p) q).isLE := by
  have hself := h.self p
  have hasc := h.ascending p
  unfold representative
  cases hg : s.group p with
  | nil => simp [hg] at hself
  | cons x xs =>
    rw [hg] at hasc
    refine ⟨by simp, fun q hq => ?_⟩
    rcases List.mem_cons.1 hq with rfl | hq
    · simp
    · simp [(List.pairwise_cons.1 hasc).1 q hq]

theorem representative_eq (hq : q ∈ s.group p) : s.representative q = s.representative p := by
  have hmem := (h.representative_least p).1
  have heq := h.group_eq hq
  unfold representative at hmem ⊢
  rw [heq]
  cases hg : s.group p with
  | nil => simp [hg] at hmem
  | cons x xs => rfl

end

end Partitions

theorem partitions_empty : Partitions {} fun _ _ => False where
  ascending p := by simp [group]
  mem_group p q := by
    rw [show group {} p = [p] from rfl, List.mem_singleton]
    constructor
    · rintro rfl
      exact .refl q
    · intro h
      induction h with
      | rel x y h => exact h.elim
      | refl x => rfl
      | symm x y _ ih => exact ih.symm
      | trans x y z _ _ hxy hyz => exact hyz.trans hxy

/-- The groups of a list of links are the components of the graph whose edges are the links. -/
theorem partitions_ofLinks (links : List ProxyLink) :
    (ofLinks links).Partitions fun p q => ⟨p, q⟩ ∈ links := by
  suffices h : ∀ (s : Sharing) (r : Proxy → Proxy → Prop), s.Partitions r →
      (links.foldl Sharing.join s).Partitions fun p q => r p q ∨ ⟨p, q⟩ ∈ links by
    have hrun := h {} _ partitions_empty
    simp only [false_or] at hrun
    exact hrun
  induction links with
  | nil =>
    intro s r hs
    simp only [List.not_mem_nil, or_false]
    exact hs
  | cons l links ih =>
    intro s r hs
    have hedge (p q : Proxy) :
        ((r p q ∨ p = l.source ∧ q = l.target) ∨ ⟨p, q⟩ ∈ links) ↔ (r p q ∨ ⟨p, q⟩ ∈ l :: links) := by
      obtain ⟨source, target⟩ := l
      rw [List.mem_cons, or_assoc, ProxyLink.mk.injEq]
    have hrun := ih _ _ (hs.join (l := l))
    simp only [hedge] at hrun
    exact hrun

end Sharing

/-! ## Shareable links -/

namespace ProxyLink

variable {g : Graph} {l : ProxyLink}

/-- Both ends are root pins, the source is not an execution pin, and the target is not on the input
side of a variable or a parameter. -/
def Shareable (g : Graph) (l : ProxyLink) : Prop :=
  ∃ s t source target owner,
    l.source.pin? = some s ∧ g.pin? s = some source ∧ source.parent = none ∧
    l.target.pin? = some t ∧ g.pin? t = some target ∧ target.parent = none ∧
    source.typeName ≠ executeType ∧
    g.node? target.node = some owner ∧ ¬(owner.kind.isStorage ∧ target.direction.isInputSide)

/-- Every pin that a link names is there. -/
def HasPins (g : Graph) (l : ProxyLink) : Prop :=
  ∀ id, l.source.pin? = some id ∨ l.target.pin? = some id → (g.pin? id).isSome

/-- The target of a link is a pin of a missing node. -/
def Orphaned (g : Graph) (l : ProxyLink) (node : NodeId) : Prop :=
  ∃ t target, l.target.pin? = some t ∧ g.pin? t = some target ∧ target.node = node ∧
    g.node? node = none

theorem shareable_iff {s t : PinId} {source target : Pin} (hs : l.source.pin? = some s)
    (ht : l.target.pin? = some t) (hsource : g.pin? s = some source) (htarget : g.pin? t = some target) :
    l.Shareable g ↔ source.parent = none ∧ target.parent = none ∧ source.typeName ≠ executeType ∧
      ∃ owner, g.node? target.node = some owner ∧
        ¬(owner.kind.isStorage ∧ target.direction.isInputSide) := by
  unfold Shareable
  grind

/-- The check is right, and only a pin without a node can make it fail. -/
theorem isShareable_spec (h : l.HasPins g) :
    Checked.Ends (fun f => ∃ node, l.Orphaned g node ∧ f = .missingNode node) (l.isShareable g)
      fun b => b = true ↔ l.Shareable g := by
  unfold isShareable
  split
  · next s t hs ht =>
    obtain ⟨source, hsource⟩ := Option.isSome_iff_exists.1 (h s (.inl hs))
    obtain ⟨target, htarget⟩ := Option.isSome_iff_exists.1 (h t (.inr ht))
    rw [shareable_iff hs ht hsource htarget, Graph.pin_eq_ok.2 hsource, Graph.pin_eq_ok.2 htarget,
      Checked.ok_bind, Checked.ok_bind]
    split
    · next hend =>
      refine Checked.ends_ok.2 ⟨by simp, ?_⟩
      rintro ⟨hsource, htarget, hexec, -⟩
      simp [Pin.isRoot, Pin.isExecute, hsource, htarget, hexec] at hend
    · next hend =>
      simp only [Pin.isRoot, Pin.isExecute, Bool.or_eq_true, Bool.not_eq_true', not_or, Bool.not_eq_false,
        Option.isNone_iff_eq_none, decide_eq_true_eq] at hend
      cases howner : g.node? target.node with
      | none =>
        rw [Graph.node, Checked.get, show g.nodes[target.node]? = none from howner]
        exact ⟨target.node, ⟨t, target, ht, htarget, rfl, howner⟩, rfl⟩
      | some owner =>
        rw [Graph.node_eq_ok.2 howner, Checked.ok_bind]
        refine Checked.ends_ok.2 ?_
        cases hstorage : owner.kind.isStorage <;> simp [hend, hstorage]
  · next hpins =>
    refine Checked.ends_ok.2 ⟨by simp, ?_⟩
    rintro ⟨s, t, source, target, owner, hs, -, -, ht, -⟩
    exact (hpins s t hs ht).elim

end ProxyLink

/-- The shareable links of a tree, as edges between proxies. -/
def Tree.Shares (t : Tree) (p q : Proxy) : Prop :=
  ∃ l ∈ t.links, l.Shareable t.graph ∧ l.source = p ∧ l.target = q

/-- Pins that are linked by shareable links are root pins, or one is the other. -/
theorem Tree.isRoot_of_eqvGen {t : Tree} (h : Relation.EqvGen t.Shares p q) :
    p.IsRoot t.graph ↔ q.IsRoot t.graph := by
  induction h with
  | rel p q h =>
    obtain ⟨l, -, hl, rfl, rfl⟩ := h
    obtain ⟨i, j, source, target, owner, hi, hsource, hroot, hj, htarget, hroot', -⟩ := hl
    exact ⟨fun _ => ⟨j, target, hj, htarget, by simp [Pin.isRoot, hroot']⟩,
      fun _ => ⟨i, source, hi, hsource, by simp [Pin.isRoot, hroot]⟩⟩
  | refl p => exact Iff.rfl
  | symm p q _ ih => exact ih.symm
  | trans p q r _ _ ih ih' => exact ih.trans ih'

namespace Sharing

/-- The groups of a tree are the components of its shareable links. -/
theorem partitions_ofTree {t : Tree} (h : ∀ l ∈ t.links, l.HasPins t.graph) :
    Checked.Ends (fun f => ∃ l ∈ t.links, ∃ node, l.Orphaned t.graph node ∧ f = .missingNode node)
      (ofTree t) fun s => s.Partitions t.Shares := by
  unfold ofTree
  rw [Checked.ends_bind]
  cases hm : t.links.mapM (m := Checked) fun l => return (l, ← l.isShareable t.graph) with
  | error f =>
    obtain ⟨l, hl, hf⟩ := Checked.exists_of_mapM_eq_error hm
    have hspec := ProxyLink.isShareable_spec (h l hl)
    cases hb : l.isShareable t.graph with
    | ok b => rw [hb] at hf; cases hf
    | error f' =>
      rw [hb] at hf hspec
      cases hf
      exact ⟨l, hl, hspec⟩
  | ok marked =>
    have hedge (p q : Proxy) :
        ⟨p, q⟩ ∈ (marked.filter (·.2)).map (·.1) ↔ t.Shares p q := by
      constructor
      · intro hpq
        obtain ⟨⟨l, b⟩, hlb, hl⟩ := List.mem_map.1 hpq
        obtain ⟨hmarked, hb⟩ := List.mem_filter.1 hlb
        obtain ⟨l', hl', hok⟩ := Checked.mem_of_mapM hm _ hmarked
        obtain ⟨b', hb', hpair⟩ := Checked.bind_eq_ok.1 hok
        cases hpair
        subst hl
        exact ⟨_, hl', ((ProxyLink.isShareable_spec (h _ hl')).of_ok hb').1 hb, rfl, rfl⟩
      · rintro ⟨l, hl, hshare, rfl, rfl⟩
        obtain ⟨m, hmarked, hok⟩ := Checked.mapM_mem hm l hl
        obtain ⟨b, hb, hpair⟩ := Checked.bind_eq_ok.1 hok
        cases hpair
        have htrue : b = true := ((ProxyLink.isShareable_spec (h l hl)).of_ok hb).2 hshare
        exact List.mem_map.2 ⟨(l, b), List.mem_filter.2 ⟨hmarked, htrue⟩, rfl⟩
    have hrun := partitions_ofLinks ((marked.filter (·.2)).map (·.1))
    simp only [hedge] at hrun
    exact hrun

/-- Three pins linked in a chain, the last link first. -/
def chainTree : Tree where
  graph := {
    nodes := [⟨"A", .reroute, [0], none⟩, ⟨"B", .reroute, [1], none⟩, ⟨"C", .reroute, [2], none⟩]
    pins := [⟨0, "Value", .inOut, "float", false, "", none, []⟩,
      ⟨1, "Value", .inOut, "float", false, "", none, []⟩, ⟨2, "Value", .inOut, "float", false, "", none, []⟩] }
  links := [⟨⟨[], .pin 1⟩, ⟨[], .pin 2⟩⟩, ⟨⟨[], .pin 0⟩, ⟨[], .pin 1⟩⟩]

theorem shareable_chainTree {l : ProxyLink} (hl : l ∈ chainTree.links) :
    l.Shareable chainTree.graph := by
  simp only [chainTree, List.mem_cons, List.not_mem_nil, or_false] at hl
  rcases hl with rfl | rfl
  · exact ⟨1, 2, _, _, _, rfl, rfl, rfl, rfl, rfl, rfl, by decide, rfl, by decide⟩
  · exact ⟨0, 1, _, _, _, rfl, rfl, rfl, rfl, rfl, rfl, by decide, rfl, by decide⟩

end Sharing
end NodeGraph
