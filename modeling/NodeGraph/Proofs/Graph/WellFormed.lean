import NodeGraph.Proofs.Outcome
import NodeGraph.Validation.Basic

/-!
# Well-formed graphs

A graph whose structure shows no issue is one in which nodes, pins and sub-pins refer to each other
consistently and parents lead to a root pin (`wellFormed_of_structureIssues`, `WellFormed.structureIssues_eq`).
In such a graph every path and every search comes to a result.
-/
namespace NodeGraph

open Checked

/-! ## Graphs -/

namespace Graph

variable {g : Graph} {n : NodeId} {p sub parent : PinId} {node : Node} {pin : Pin} {steps : Nat} {c : PinChain}

/-- Nodes, pins and sub-pins refer to each other consistently. -/
structure Linked (g : Graph) : Prop where
  listed : ∀ {n node p}, g.node? n = some node → p ∈ node.pins →
    ∃ pin, g.pin? p = some pin ∧ pin.node = n ∧ pin.parent = none
  owned : ∀ {p pin}, g.pin? p = some pin → ∃ node, g.node? pin.node = some node
  above : ∀ {p pin parent}, g.pin? p = some pin → pin.parent = some parent →
    ∃ upper, g.pin? parent = some upper ∧ p ∈ upper.subPins ∧ upper.node = pin.node
  onNode : ∀ {p pin node}, g.pin? p = some pin → pin.parent = none → g.node? pin.node = some node →
    p ∈ node.pins
  below : ∀ {p pin sub}, g.pin? p = some pin → sub ∈ pin.subPins →
    ∃ lower, g.pin? sub = some lower ∧ lower.parent = some p

/-- Nodes, pins and sub-pins refer to each other consistently, and parents lead to a root pin. -/
structure WellFormed (g : Graph) : Prop extends g.Linked where
  rooted : ∀ {p pin}, g.pin? p = some pin → ∃ c, g.chain p = .ok c

theorem node_eq_ok : g.node n = .ok node ↔ g.node? n = some node := get_eq_ok

theorem pin_eq_ok : g.pin p = .ok pin ↔ g.pin? p = some pin := get_eq_ok

/-! ### Chains -/

theorem chainWithin_of_root (hp : g.pin? p = some pin) (hroot : pin.parent = none) :
    g.chainWithin (steps + 1) p = .ok ⟨p, pin, []⟩ := by
  rw [chainWithin, pin_eq_ok.2 hp, ok_bind, hroot]
  rfl

theorem chainWithin_of_parent (hp : g.pin? p = some pin) (hparent : pin.parent = some parent)
    (hc : g.chainWithin steps parent = .ok c) :
    g.chainWithin (steps + 1) p = .ok { c with below := c.below ++ [pin] } := by
  rw [chainWithin, pin_eq_ok.2 hp, ok_bind, hparent]
  dsimp only
  rw [hc]
  rfl

/-- A chain is a root pin, or one link longer than that of the parent. -/
theorem chainWithin_cases (h : g.chainWithin (steps + 1) p = .ok c) :
    ∃ pin, g.pin? p = some pin ∧ ((pin.parent = none ∧ c = ⟨p, pin, []⟩) ∨
      ∃ parent upper, pin.parent = some parent ∧ g.chainWithin steps parent = .ok upper ∧
        c = { upper with below := upper.below ++ [pin] }) := by
  rw [chainWithin] at h
  obtain ⟨pin, hpin, h⟩ := bind_eq_ok.1 h
  refine ⟨pin, pin_eq_ok.1 hpin, ?_⟩
  split at h
  · next hparent =>
    cases h
    exact .inl ⟨hparent, rfl⟩
  · next parent hparent =>
    obtain ⟨upper, hupper, h⟩ := bind_eq_ok.1 h
    cases h
    exact .inr ⟨parent, upper, hparent, hupper, rfl⟩

/-- A chain starts at a root pin. -/
theorem chainWithin_root (h : g.chainWithin steps p = .ok c) :
    g.pin? c.root = some c.rootPin ∧ c.rootPin.parent = none := by
  induction steps generalizing p c with
  | zero => cases h
  | succ steps ih =>
    obtain ⟨pin, hpin, ⟨hroot, rfl⟩ | ⟨parent, upper, -, hupper, rfl⟩⟩ := chainWithin_cases h
    · exact ⟨hpin, hroot⟩
    · have hroot := ih hupper
      exact hroot

theorem pinResolves_eq_true_iff :
    g.pinResolves p = true ↔ ∃ c, g.chain p = .ok c ∧ ∃ node, g.node? c.rootPin.node = some node := by
  unfold pinResolves
  cases g.chain p with
  | error fault => simp
  | ok c => simp [Option.isSome_iff_exists]

/-! ### Issues -/

theorem listingIssue_eq_none_iff :
    g.listingIssue n p = none ↔ ∃ pin, g.pin? p = some pin ∧ pin.node = n ∧ pin.parent = none := by
  unfold listingIssue
  cases g.pin? p with
  | none => simp
  | some pin => by_cases hnode : pin.node = n <;> cases hparent : pin.parent <;> simp [hnode, hparent]

theorem placeIssue_eq_none_of_parent (h : pin.parent = some parent) : g.placeIssue p pin = none ↔
    ∃ upper, g.pin? parent = some upper ∧ p ∈ upper.subPins ∧ upper.node = pin.node := by
  unfold placeIssue
  rw [h]
  dsimp only
  cases g.pin? parent with
  | none => simp
  | some upper => by_cases hsub : p ∈ upper.subPins <;> by_cases hnode : upper.node = pin.node <;> simp [hsub, hnode]

theorem placeIssue_eq_none_of_root (h : pin.parent = none) :
    g.placeIssue p pin = none ↔ ∀ node, g.node? pin.node = some node → p ∈ node.pins := by
  unfold placeIssue
  rw [h]
  dsimp only
  cases g.node? pin.node with
  | none => simp
  | some node => by_cases hlist : p ∈ node.pins <;> simp [hlist]

theorem subPinIssue_eq_none_iff :
    g.subPinIssue p sub = none ↔ ∃ lower, g.pin? sub = some lower ∧ lower.parent = some p := by
  unfold subPinIssue
  cases g.pin? sub with
  | none => simp
  | some lower => by_cases hparent : lower.parent = some p <;> simp [hparent]

theorem referenceIssues_eq_nil_iff : g.referenceIssues p pin = [] ↔ (∃ node, g.node? pin.node = some node) ∧
    g.placeIssue p pin = none ∧ ∀ sub ∈ pin.subPins, g.subPinIssue p sub = none := by
  rw [referenceIssues, List.append_eq_nil_iff, List.append_eq_nil_iff, Option.toList_eq_nil_iff,
    List.filterMap_eq_nil_iff, and_assoc, ← Option.isSome_iff_exists]
  cases (g.node? pin.node).isSome <;> simp

theorem pinIssues_eq_nil_iff :
    g.pinIssues p pin = [] ↔ g.referenceIssues p pin = [] ∧ g.pinResolves p = true := by
  unfold pinIssues
  rw [List.map_eq_nil_iff]
  cases g.referenceIssues p pin with
  | nil => cases g.pinResolves p <;> simp
  | cons message messages => simp

theorem structureIssues_eq_nil : g.structureIssues = [] ↔
    (∀ n node, g.node? n = some node → ∀ p ∈ node.pins, g.listingIssue n p = none) ∧
      ∀ p pin, g.pin? p = some pin → g.pinIssues p pin = [] := by
  rw [structureIssues, List.append_eq_nil_iff, List.flatMap_eq_nil_iff, List.flatMap_eq_nil_iff]
  refine and_congr ⟨fun h n node hn => ?_, fun h entry hentry => ?_⟩ ⟨fun h p pin hp => ?_, fun h entry hentry => ?_⟩
  · have hnode := h (node, n) (List.mem_zipIdx_iff_getElem?.2 hn)
    exact List.filterMap_eq_nil_iff.1 (List.map_eq_nil_iff.1 hnode)
  · exact List.map_eq_nil_iff.2 (List.filterMap_eq_nil_iff.2 (h _ _ (List.mem_zipIdx_iff_getElem?.1 hentry)))
  · exact h (pin, p) (List.mem_zipIdx_iff_getElem?.2 hp)
  · exact h _ _ (List.mem_zipIdx_iff_getElem?.1 hentry)

/-- A graph without structural issues is well-formed. -/
theorem wellFormed_of_structureIssues (h : g.structureIssues = []) : g.WellFormed := by
  obtain ⟨hnodes, hpins⟩ := structureIssues_eq_nil.1 h
  have hrefs {p : PinId} {pin : Pin} (hp : g.pin? p = some pin) :=
    referenceIssues_eq_nil_iff.1 (pinIssues_eq_nil_iff.1 (hpins p pin hp)).1
  exact {
    listed := fun hn hp => listingIssue_eq_none_iff.1 (hnodes _ _ hn _ hp)
    owned := fun hp => (hrefs hp).1
    above := fun hp hparent => (placeIssue_eq_none_of_parent hparent).1 (hrefs hp).2.1
    onNode := fun hp hroot hn => (placeIssue_eq_none_of_root hroot).1 (hrefs hp).2.1 _ hn
    below := fun hp hsub => subPinIssue_eq_none_iff.1 ((hrefs hp).2.2 _ hsub)
    rooted := fun hp => by
      obtain ⟨c, hc, -⟩ := pinResolves_eq_true_iff.1 (pinIssues_eq_nil_iff.1 (hpins _ _ hp)).2
      exact ⟨c, hc⟩ }

theorem WellFormed.pinResolves (h : g.WellFormed) (hp : g.pin? p = some pin) : g.pinResolves p = true := by
  obtain ⟨c, hc⟩ := h.rooted hp
  exact pinResolves_eq_true_iff.2 ⟨c, hc, h.owned (chainWithin_root hc).1⟩

/-- A well-formed graph has no structural issues. -/
theorem WellFormed.structureIssues_eq (h : g.WellFormed) : g.structureIssues = [] := by
  refine structureIssues_eq_nil.2
    ⟨fun n node hn p hp => listingIssue_eq_none_iff.2 (h.listed hn hp), fun p pin hp => ?_⟩
  refine pinIssues_eq_nil_iff.2 ⟨referenceIssues_eq_nil_iff.2 ⟨h.owned hp, ?_, fun sub hsub => ?_⟩, h.pinResolves hp⟩
  · cases hparent : pin.parent with
    | none => exact (placeIssue_eq_none_of_root hparent).2 fun node hn => h.onNode hp hparent hn
    | some parent => exact (placeIssue_eq_none_of_parent hparent).2 (h.above hp hparent)
  · exact subPinIssue_eq_none_iff.2 (h.below hp hsub)

namespace WellFormed

theorem exists_rootPin (h : g.WellFormed) (hp : g.pin? p = some pin) :
    ∃ root, g.rootPin p = .ok root ∧ ∃ rootPin, g.pin? root = some rootPin := by
  obtain ⟨c, hc⟩ := h.rooted hp
  exact ⟨c.root, by rw [rootPin, hc]; rfl, c.rootPin, (chainWithin_root hc).1⟩

/-- The root of a pin is on the same node. -/
theorem node_of_chainWithin (h : g.WellFormed) (hp : g.pin? p = some pin) (hc : g.chainWithin steps p = .ok c) :
    c.rootPin.node = pin.node := by
  induction steps generalizing p pin c with
  | zero => cases hc
  | succ steps ih =>
    obtain ⟨pin', hp', ⟨-, rfl⟩ | ⟨parent, upper, hparent, hupper, rfl⟩⟩ := chainWithin_cases hc <;>
      cases hp.symm.trans hp'
    · rfl
    · obtain ⟨above, habove, -, hnode⟩ := h.above hp hparent
      exact (ih habove hupper).trans hnode

theorem node_of_rootPin (h : g.WellFormed) {root : PinId} (hp : g.pin? p = some pin)
    (hroot : g.rootPin p = .ok root) : ∃ rootPin, g.pin? root = some rootPin ∧ rootPin.node = pin.node := by
  obtain ⟨c, hc, hroot⟩ := bind_eq_ok.1 hroot
  cases hroot
  exact ⟨c.rootPin, (chainWithin_root hc).1, h.node_of_chainWithin hp hc⟩

theorem exists_pinPath (h : g.WellFormed) (hp : g.pin? p = some pin) : ∃ path, g.pinPath p = .ok path := by
  obtain ⟨c, hc⟩ := h.rooted hp
  obtain ⟨node, hn⟩ := h.owned (chainWithin_root hc).1
  exact ⟨_, by rw [pinPath, hc, ok_bind, node_eq_ok.2 hn]; rfl⟩

theorem exists_propertySegments (h : g.WellFormed) (hp : g.pin? p = some pin) :
    ∃ segments, g.propertySegments p = .ok segments := by
  obtain ⟨c, hc⟩ := h.rooted hp
  exact ⟨_, by rw [propertySegments, hc]; rfl⟩

theorem exists_firstNamed (name : String) (pins : List PinId)
    (h : ∀ p ∈ pins, ∃ pin, g.pin? p = some pin) :
    ∃ r, g.firstNamed name pins = .ok r ∧ ∀ p ∈ r, p ∈ pins := by
  obtain ⟨r, hr, hmem⟩ := exists_findM? (p := fun p => return (← g.pin p).name = name)
    (l := pins) fun p hp => by
      obtain ⟨pin, hpin⟩ := h p hp
      exact ⟨_, by rw [pin_eq_ok.2 hpin]; rfl⟩
  exact ⟨r, hr, fun p hp => (hmem p hp).1⟩

theorem exists_descend (h : g.WellFormed) (names : List String) (hp : g.pin? p = some pin) :
    ∃ r, g.descend p names = .ok r := by
  induction names generalizing p pin with
  | nil => exact ⟨some p, rfl⟩
  | cons name names ih =>
    obtain ⟨r, hr, hmem⟩ := exists_firstNamed (g := g) name pin.subPins fun sub hsub => by
      obtain ⟨lower, hl, -⟩ := h.below hp hsub
      exact ⟨lower, hl⟩
    rw [descend, pin_eq_ok.2 hp, ok_bind, hr, ok_bind]
    cases r with
    | none => exact ⟨none, rfl⟩
    | some sub =>
      obtain ⟨lower, hl, -⟩ := h.below hp (hmem sub rfl)
      exact ih hl

theorem exists_findByPath (h : g.WellFormed) (path : String) : ∃ r, g.findByPath path = .ok r := by
  unfold findByPath
  split
  · next nodeName pinName names _ =>
    split
    · exact ⟨none, rfl⟩
    · next n hn =>
      obtain ⟨hlt, -⟩ := List.findIdx?_eq_some_iff_getElem.1 hn
      have hnode : g.node? n = some g.nodes[n] := List.getElem?_eq_getElem hlt
      have hpins : ∀ p ∈ g.nodes[n].pins, ∃ pin, g.pin? p = some pin := fun p hp => by
        obtain ⟨pin, hpin, -⟩ := h.listed hnode hp
        exact ⟨pin, hpin⟩
      obtain ⟨r, hr, hmem⟩ := exists_firstNamed pinName _ hpins
      rw [findPin, node_eq_ok.2 hnode, ok_bind, hr, ok_bind]
      cases r with
      | none => exact ⟨none, rfl⟩
      | some p =>
        obtain ⟨pin, hpin⟩ := hpins p (hmem p rfl)
        exact h.exists_descend names hpin
  · exact ⟨none, rfl⟩

end WellFormed
end Graph

/-! ## Proxies -/

/-- All call sites of a call stack exist. -/
def CallStack.ExistsIn (g : Graph) (s : CallStack) : Prop :=
  ∀ site ∈ s, ∃ node, g.node? site = some node

namespace Proxy

variable {g : Graph} {p : Proxy}

/-- Whether a proxy refers to an existing node or pin, whatever kind of nodes it is seen through. -/
def isKnown (g : Graph) (p : Proxy) : Bool :=
  let target := match p.target with
    | .node id => (g.node? id).isSome
    | .pin id => (g.pin? id).isSome
  target && p.callStack.all fun site => (g.node? site).isSome

theorem callStack_of_isKnown (h : p.isKnown g = true) : p.callStack.ExistsIn g := fun site hsite =>
  Option.isSome_iff_exists.1 (List.all_eq_true.1 (Bool.and_eq_true_iff.1 h).2 site hsite)

theorem isKnown_of_existsIn (h : p.existsIn g = true) : p.isKnown g = true := by
  obtain ⟨htarget, hsites⟩ := Bool.and_eq_true_iff.1 h
  refine Bool.and_eq_true_iff.2 ⟨htarget, List.all_eq_true.2 fun site hsite => ?_⟩
  have hall := List.all_eq_true.1 hsites site hsite
  split at hall
  · next heq => rw [heq]; rfl
  · cases hall

theorem callStack_existsIn (h : p.existsIn g = true) : p.callStack.ExistsIn g :=
  callStack_of_isKnown (isKnown_of_existsIn h)

theorem exists_pin (h : p.existsIn g = true) {id : PinId} (hp : p.pin? = some id) :
    ∃ pin, g.pin? id = some pin := by
  have ht := (Bool.and_eq_true_iff.1 h).1
  unfold pin? at hp
  cases hq : p.target with
  | node n => simp [hq] at hp
  | pin n =>
    simp only [hq, Option.some.injEq] at hp
    subst hp
    simp only [hq] at ht
    exact Option.isSome_iff_exists.1 ht

/-- The node of a pin is the one it belongs to. -/
theorem nodeId_eq {id : PinId} {pin : Pin} (hp : p.pin? = some id) (hpin : g.pin? id = some pin) :
    p.nodeId g = .ok pin.node := by
  obtain ⟨stack, target⟩ := p
  cases target with
  | node n => cases hp
  | pin n =>
    cases hp
    simp only [nodeId, Graph.pin_eq_ok.2 hpin]
    rfl

theorem withPin_self {id : PinId} (h : p.pin? = some id) : p.withPin id = p := by
  obtain ⟨stack, target⟩ := p
  cases target with
  | node n => cases h
  | pin n => cases h; rfl

/-- The proxy of a root pin. -/
def IsRoot (g : Graph) (p : Proxy) : Prop :=
  ∃ id pin, p.pin? = some id ∧ g.pin? id = some pin ∧ pin.isRoot = true

theorem IsRoot.isSome (h : p.IsRoot g) : p.pin?.isSome = true := by
  obtain ⟨id, -, hid, -⟩ := h
  rw [hid]
  rfl

theorem isRoot_withPin {id root : PinId} (h : g.rootPin id = .ok root) : (p.withPin root).IsRoot g := by
  obtain ⟨c, hc, h⟩ := bind_eq_ok.1 h
  cases h
  obtain ⟨hpin, hparent⟩ := Graph.chainWithin_root hc
  exact ⟨c.root, c.rootPin, rfl, hpin, by simp [Pin.isRoot, hparent]⟩

theorem existsIn_withPin (h : p.existsIn g = true) {id : PinId} {pin : Pin}
    (hp : g.pin? id = some pin) : (p.withPin id).existsIn g = true := by
  have hsites := (Bool.and_eq_true_iff.1 h).2
  exact Bool.and_eq_true_iff.2 ⟨by simp [withPin, hp], hsites⟩

end Proxy

theorem CallStack.exists_pathPrefix {g : Graph} {s : CallStack} (h : s.ExistsIn g) :
    ∃ text, CallStack.pathPrefix g s = .ok text := by
  induction s with
  | nil => exact ⟨"", rfl⟩
  | cons site sites ih =>
    obtain ⟨node, hn⟩ := h site (by simp)
    obtain ⟨text, ht⟩ := ih fun site' hs => h site' (by simp [hs])
    refine ⟨node.name ++ "|" ++ text, ?_⟩
    rw [pathPrefix, Graph.node_eq_ok.2 hn, ok_bind, ht]
    rfl

namespace Graph.WellFormed

variable {g : Graph} {p : Proxy}

theorem exists_nodeId_of_isKnown (h : g.WellFormed) (hp : p.isKnown g = true) :
    ∃ n node, p.nodeId g = .ok n ∧ g.node? n = some node := by
  have ht := (Bool.and_eq_true_iff.1 hp).1
  unfold Proxy.nodeId
  cases hq : p.target with
  | node n =>
    simp only [hq] at ht
    obtain ⟨node, hn⟩ := Option.isSome_iff_exists.1 ht
    exact ⟨n, node, rfl, hn⟩
  | pin id =>
    simp only [hq] at ht
    obtain ⟨pin, hpin⟩ := Option.isSome_iff_exists.1 ht
    obtain ⟨node, hn⟩ := h.owned hpin
    exact ⟨pin.node, node, by dsimp only; rw [pin_eq_ok.2 hpin]; rfl, hn⟩

theorem exists_nodeId (h : g.WellFormed) (hp : p.existsIn g = true) :
    ∃ n node, p.nodeId g = .ok n ∧ g.node? n = some node :=
  h.exists_nodeId_of_isKnown (Proxy.isKnown_of_existsIn hp)

theorem exists_path_of_isKnown (h : g.WellFormed) (hp : p.isKnown g = true) : ∃ text, p.path g = .ok text := by
  obtain ⟨sites, hs⟩ := CallStack.exists_pathPrefix (Proxy.callStack_of_isKnown hp)
  have ht := (Bool.and_eq_true_iff.1 hp).1
  unfold Proxy.path
  rw [hs, ok_bind]
  cases hq : p.target with
  | node n =>
    simp only [hq] at ht
    obtain ⟨node, hn⟩ := Option.isSome_iff_exists.1 ht
    exact ⟨_, by dsimp only; rw [node_eq_ok.2 hn]; rfl⟩
  | pin id =>
    simp only [hq] at ht
    obtain ⟨pin, hpin⟩ := Option.isSome_iff_exists.1 ht
    obtain ⟨path, hpath⟩ := h.exists_pinPath hpin
    exact ⟨_, by dsimp only; rw [hpath]; rfl⟩

theorem exists_path (h : g.WellFormed) (hp : p.existsIn g = true) : ∃ text, p.path g = .ok text :=
  h.exists_path_of_isKnown (Proxy.isKnown_of_existsIn hp)

end Graph.WellFormed
end NodeGraph
