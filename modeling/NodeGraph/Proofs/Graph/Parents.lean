import Mathlib.Data.List.Perm.Subperm
import Mathlib.Logic.Relation
import NodeGraph.Proofs.Graph.WellFormed

/-!
# Parents of pins

`chain` follows parents for at most as many steps as there are pins. No more are needed: the pins of a chain
that comes to a root pin have chains of different lengths, so none of them is there twice
(`chain_of_chainWithin`). So a pin resolves exactly if its parents lead to a root pin of a node
(`pinResolves_iff_leads`), and the only thing that the structure of a graph can lack when all references are
right is an end of a chain of parents (`Coherent`).
-/
namespace NodeGraph.Graph

variable {g : Graph} {p q root : PinId} {pin rootPin : Pin} {c c' : PinChain} {steps steps' : Nat}

/-- The pin `p` has the parent `q`. -/
def HasParent (g : Graph) (p q : PinId) : Prop := ∃ pin, g.pin? p = some pin ∧ pin.parent = some q

/-- Following parents leads from `p` to the root pin `root` in finitely many steps. -/
structure LeadsTo (g : Graph) (p root : PinId) (rootPin : Pin) : Prop where
  path : Relation.ReflTransGen g.HasParent p root
  pin : g.pin? root = some rootPin
  parent : rootPin.parent = none

/-- The parents of `p` go on without an end. -/
def Endless (g : Graph) (p : PinId) : Prop :=
  ∃ walk : Nat → PinId, walk 0 = p ∧ ∀ n, g.HasParent (walk n) (walk (n + 1))

/-! ## Lengths of chains -/

section

variable (h : g.chainWithin steps p = .ok c)

include h

/-- A chain is found with any number of steps that is larger than its length. -/
theorem chainWithin_of_lt (hlt : c.below.length < steps') : g.chainWithin steps' p = .ok c := by
  induction steps generalizing p c steps' with
  | zero => cases h
  | succ steps ih =>
    cases steps' with
    | zero => exact absurd hlt (Nat.not_lt_zero _)
    | succ steps' =>
      obtain ⟨pin, hpin, ⟨hroot, rfl⟩ | ⟨parent, upper, hparent, hupper, rfl⟩⟩ := chainWithin_cases h
      · exact chainWithin_of_root hpin hroot
      · refine chainWithin_of_parent hpin hparent (ih hupper ?_)
        rw [List.length_append, List.length_singleton] at hlt
        exact Nat.lt_of_succ_lt_succ hlt

/-- The chain of a pin does not depend on the number of steps. -/
theorem chainWithin_unique (h' : g.chainWithin steps' p = .ok c') : c = c' := by
  have hlong := chainWithin_of_lt h (Nat.lt_succ_of_le (Nat.le_max_left c.below.length c'.below.length))
  have hlong' := chainWithin_of_lt h' (Nat.lt_succ_of_le (Nat.le_max_right c.below.length c'.below.length))
  exact Except.ok.inj (hlong.symm.trans hlong')

/-- The pins of a chain are different, since the chain of each is shorter than those of the pins below it. -/
theorem exists_nodup_of_chainWithin : ∃ ids : List PinId,
    ids.Nodup ∧ ids.length = c.below.length + 1 ∧ ∀ id ∈ ids, id < g.pins.length ∧
      ∃ steps upper, g.chainWithin steps id = .ok upper ∧ upper.below.length ≤ c.below.length := by
  induction steps generalizing p c with
  | zero => cases h
  | succ steps ih =>
    obtain ⟨pin, hpin, ⟨-, rfl⟩ | ⟨parent, upper, hparent, hupper, rfl⟩⟩ := chainWithin_cases h
    all_goals have hlt : p < g.pins.length := (List.getElem?_eq_some_iff.1 hpin).1
    · exact ⟨[p], by simp, rfl, List.forall_mem_singleton.2 ⟨hlt, _, _, h, Nat.le_refl 0⟩⟩
    · obtain ⟨ids, hnodup, hlength, hids⟩ := ih hupper
      have hlonger : upper.below.length + 1 = (upper.below ++ [pin]).length := by simp
      have hfresh : p ∉ ids := by
        intro hp
        obtain ⟨-, _, _, hchain, hle⟩ := hids p hp
        cases chainWithin_unique h hchain
        rw [← hlonger] at hle
        exact Nat.not_succ_le_self _ hle
      refine ⟨p :: ids, List.nodup_cons.2 ⟨hfresh, hnodup⟩, by simp [hlength], ?_⟩
      refine List.forall_mem_cons.2 ⟨⟨hlt, _, _, h, Nat.le_refl _⟩, fun id hid => ?_⟩
      obtain ⟨hidlt, steps', upper', hchain, hle⟩ := hids id hid
      exact ⟨hidlt, steps', upper', hchain, Nat.le_trans hle (hlonger ▸ Nat.le_succ _)⟩

/-- A chain has fewer links than there are pins. -/
theorem length_below_lt : c.below.length < g.pins.length := by
  obtain ⟨ids, hnodup, hlength, hids⟩ := exists_nodup_of_chainWithin h
  have hsub : ids ⊆ List.range g.pins.length := fun id hid => List.mem_range.2 (hids id hid).1
  have hle := (List.subperm_of_subset hnodup hsub).length_le
  rwa [hlength, List.length_range] at hle

/-- As many steps as there are pins are enough for every chain. -/
theorem chain_of_chainWithin : g.chain p = .ok c :=
  chainWithin_of_lt h (Nat.lt_succ_of_lt (length_below_lt h))

end

/-- A sub-pin has the chain of its parent and one more link. -/
theorem chain_of_parent (hp : g.pin? p = some pin) (hparent : pin.parent = some q) (hc : g.chain q = .ok c) :
    g.chain p = .ok { c with below := c.below ++ [pin] } :=
  chain_of_chainWithin (chainWithin_of_parent hp hparent hc)

/-! ## Chains and parents -/

theorem leadsTo_of_chainWithin (h : g.chainWithin steps p = .ok c) : g.LeadsTo p c.root c.rootPin := by
  induction steps generalizing p c with
  | zero => cases h
  | succ steps ih =>
    obtain ⟨pin, hpin, ⟨hroot, rfl⟩ | ⟨parent, upper, hparent, hupper, rfl⟩⟩ := chainWithin_cases h
    · exact ⟨.refl, hpin, hroot⟩
    · obtain ⟨hpath, hrootPin, hroot⟩ := ih hupper
      exact ⟨hpath.head ⟨pin, hpin, hparent⟩, hrootPin, hroot⟩

theorem LeadsTo.exists_chain (h : g.LeadsTo p root rootPin) :
    ∃ c, g.chain p = .ok c ∧ c.root = root ∧ c.rootPin = rootPin := by
  obtain ⟨hpath, hpin, hroot⟩ := h
  induction hpath using Relation.ReflTransGen.head_induction_on with
  | refl => exact ⟨⟨root, rootPin, []⟩, chainWithin_of_root hpin hroot, rfl, rfl⟩
  | head hstep _ ih =>
    obtain ⟨pin, hp, hparent⟩ := hstep
    obtain ⟨c, hc, rfl, rfl⟩ := ih
    exact ⟨_, chain_of_parent hp hparent hc, rfl, rfl⟩

/-- A pin resolves if and only if its parents lead to a root pin of a node. -/
theorem pinResolves_iff_leads : g.pinResolves p = true ↔
    ∃ root rootPin, g.LeadsTo p root rootPin ∧ ∃ node, g.node? rootPin.node = some node := by
  rw [pinResolves_eq_true_iff]
  constructor
  · rintro ⟨c, hc, hnode⟩
    exact ⟨c.root, c.rootPin, leadsTo_of_chainWithin hc, hnode⟩
  · rintro ⟨root, rootPin, hleads, hnode⟩
    obtain ⟨c, hc, -, rfl⟩ := hleads.exists_chain
    exact ⟨c, hc, hnode⟩

/-- A chain that comes to a root pin has an end. -/
theorem not_endless_of_chainWithin (h : g.chainWithin steps p = .ok c) : ¬ g.Endless p := by
  rintro ⟨walk, rfl, hwalk⟩
  suffices hend : ∀ steps n c, g.chainWithin steps (walk n) ≠ .ok c from hend steps 0 c h
  intro steps
  induction steps with
  | zero =>
    intro n c h
    cases h
  | succ steps ih =>
    intro n c h
    obtain ⟨pin, hpin, hcases⟩ := chainWithin_cases h
    obtain ⟨pin', hpin', hnext⟩ := hwalk n
    cases hpin.symm.trans hpin'
    obtain ⟨hroot, -⟩ | ⟨parent, upper, hparent, hupper, -⟩ := hcases
    · cases hroot.symm.trans hnext
    · cases hparent.symm.trans hnext
      exact ih (n + 1) upper hupper

/-- The pin that is `n` parents above `p`. There is none above a root pin, which stands for itself. -/
def ancestor (g : Graph) (p : PinId) : Nat → PinId
  | 0 => p
  | n + 1 => ((g.pin? (g.ancestor p n)).bind Pin.parent).getD (g.ancestor p n)

theorem ancestor_succ {n : Nat} (h : g.HasParent (g.ancestor p n) q) : g.ancestor p (n + 1) = q := by
  obtain ⟨pin, hpin, hparent⟩ := h
  simp [ancestor, hpin, hparent]

/-- Where all parents exist, a pin without a chain has a parent without one. -/
theorem Linked.exists_parent (h : g.Linked) (hp : g.pin? p = some pin) (hnone : ∀ c, g.chain p ≠ .ok c) :
    ∃ q, g.HasParent p q ∧ (∃ upper, g.pin? q = some upper) ∧ ∀ c, g.chain q ≠ .ok c := by
  cases hparent : pin.parent with
  | none => exact absurd (chainWithin_of_root hp hparent) (hnone _)
  | some parent =>
    obtain ⟨upper, hupper, -⟩ := h.above hp hparent
    exact ⟨parent, ⟨pin, hp, hparent⟩, ⟨upper, hupper⟩, fun c hc => hnone _ (chain_of_parent hp hparent hc)⟩

theorem Linked.exists_chain_or_endless (h : g.Linked) (hp : g.pin? p = some pin) :
    (∃ c, g.chain p = .ok c) ∨ g.Endless p := by
  by_cases hchain : ∃ c, g.chain p = .ok c
  · exact .inl hchain
  have habove (n : Nat) : (∃ upper, g.pin? (g.ancestor p n) = some upper) ∧ ∀ c, g.chain (g.ancestor p n) ≠ .ok c := by
    induction n with
    | zero => exact ⟨⟨pin, hp⟩, not_exists.1 hchain⟩
    | succ n ih =>
      obtain ⟨⟨upper, hupper⟩, hnone⟩ := ih
      obtain ⟨q, hparent, hq⟩ := h.exists_parent hupper hnone
      rwa [ancestor_succ hparent]
  refine .inr ⟨g.ancestor p, rfl, fun n => ?_⟩
  obtain ⟨⟨upper, hupper⟩, hnone⟩ := habove n
  obtain ⟨q, hparent, -⟩ := h.exists_parent hupper hnone
  rwa [ancestor_succ hparent]

/-! ## Graphs without issues -/

/-- Nodes, pins and sub-pins refer to each other consistently, and every chain of parents has an end. -/
structure Coherent (g : Graph) : Prop extends g.Linked where
  finite : ∀ p, ¬ g.Endless p

theorem coherent_iff_wellFormed : g.Coherent ↔ g.WellFormed := by
  constructor
  · intro h
    exact ⟨h.toLinked, fun hp => (h.exists_chain_or_endless hp).resolve_right (h.finite _)⟩
  · intro h
    refine ⟨h.toLinked, fun p hendless => ?_⟩
    obtain ⟨walk, hstart, hwalk⟩ := id hendless
    obtain ⟨pin, hpin, -⟩ := hwalk 0
    obtain ⟨c, hc⟩ := h.rooted (hstart ▸ hpin)
    exact not_endless_of_chainWithin hc hendless

/-- The structure of a graph has no issue if and only if references are right and chains of parents have an
end. Then the root pin, the path and the member path of every pin are found, and the root pin is one of the
same node. In every graph, a pin resolves if and only if its parents lead to a root pin of a node. -/
theorem structureIssues_exact (g : Graph) :
    (g.structureIssues = [] ↔ g.Coherent) ∧
    (g.Coherent → ∀ p pin, g.pin? p = some pin →
      (∃ root rootPin, g.rootPin p = .ok root ∧ g.LeadsTo p root rootPin ∧ rootPin.node = pin.node) ∧
      (∃ path, g.pinPath p = .ok path) ∧ ∃ segments, g.propertySegments p = .ok segments) ∧
    ∀ p, g.pinResolves p = true ↔
      ∃ root rootPin, g.LeadsTo p root rootPin ∧ ∃ node, g.node? rootPin.node = some node := by
  refine ⟨?_, fun h p pin hp => ?_, fun p => pinResolves_iff_leads⟩
  · rw [coherent_iff_wellFormed]
    exact ⟨wellFormed_of_structureIssues, WellFormed.structureIssues_eq⟩
  · have hwf := coherent_iff_wellFormed.1 h
    obtain ⟨c, hc⟩ := hwf.rooted hp
    refine ⟨⟨c.root, c.rootPin, ?_, leadsTo_of_chainWithin hc, hwf.node_of_chainWithin hp hc⟩,
      hwf.exists_pinPath hp, hwf.exists_propertySegments hp⟩
    rw [Graph.rootPin, hc]
    rfl

/-- A pin with a sub-pin that has a sub-pin itself. -/
def nestedPins : Graph where
  nodes := [{ name := "Split", kind := .branch, pins := [0] }]
  pins :=
    [{ node := 0, name := "Mark", direction := .input, typeName := "Mark", subPins := [1] },
      { node := 0, name := "Axis", direction := .input, typeName := "Axis", parent := some 0, subPins := [2] },
      { node := 0, name := "Along", direction := .input, typeName := "double", parent := some 1 }]

theorem structureIssues_exact_nestedPins : nestedPins.Coherent ∧
    ∃ root rootPin, nestedPins.rootPin 2 = .ok root ∧ nestedPins.LeadsTo 2 root rootPin ∧ rootPin.node = 0 := by
  obtain ⟨hissues, hfound, -⟩ := structureIssues_exact nestedPins
  have hcoherent := hissues.1 (by decide)
  exact ⟨hcoherent, (hfound hcoherent 2 _ rfl).1⟩

-- Two pins below each other: every reference is right, and both chains are without an end.
example : structureIssues
    { nodes := [{ name := "Split", kind := .branch }]
      pins :=
        [{ node := 0, name := "Left", direction := .input, typeName := "Mark", parent := some 1, subPins := [1] },
          { node := 0, name := "Right", direction := .input, typeName := "Mark", parent := some 0, subPins := [0] }] } =
    [⟨.pin 0, "parent pins form a cycle"⟩, ⟨.pin 1, "parent pins form a cycle"⟩] := by decide

end NodeGraph.Graph
