import NodeGraph.Proofs.Graph.Names
import NodeGraph.Proofs.Graph.Parents
import NodeGraph.Proofs.Text

/-!
# Finding pins by their paths

A path is written from a pin up to its node, and it is looked up from a node down to a pin. Both go through
the same names, those along the chain of the pin (`chainNames`). What a look-up finds has the names that the
path was cut into, so its own path is the text again. The names of a pin are the pieces of its path if no name
contains a separator, and they lead back to the pin if names tell apart what is in one place
(`paths_resolve`).
-/
namespace NodeGraph

namespace Graph

variable {g : Graph} {p q sub : PinId} {pin : Pin} {owner : Node} {c : PinChain} {name : String}
  {names names' : List String} {pins : List PinId}

/-- The names along the chain of a pin, from its node on. -/
def chainNames (owner : Node) (c : PinChain) : List String :=
  owner.name :: c.rootPin.name :: c.below.map (·.name)

theorem toList_foldl_names (pins : List Pin) (start : String) :
    (pins.foldl (fun path pin => path ++ "." ++ pin.name) start).toList =
      ['.'].intercalate (start.toList :: pins.map fun pin => pin.name.toList) := by
  induction pins generalizing start with
  | nil => simp
  | cons pin pins ih =>
    rw [List.foldl_cons, ih]
    cases pins <;> simp

theorem toList_chainPath (owner : Node) (c : PinChain) :
    (chainPath owner c).toList = ['.'].intercalate ((chainNames owner c).map String.toList) := by
  rw [chainPath, toList_foldl_names, chainNames, List.map_cons, List.map_cons, List.map_map]
  cases c.below <;> simp [Function.comp_def]

/-- A text whose pieces are the names of a chain is the path of that chain. -/
theorem chainPath_eq_of_pieces {path : String}
    (h : (Text.pieces '.' path.toList).map String.ofList = chainNames owner c) : chainPath owner c = path := by
  have hpieces : Text.pieces '.' path.toList = (chainNames owner c).map String.toList := by
    rw [← h, List.map_map]
    simp
  rw [← String.toList_inj, toList_chainPath, ← hpieces, Text.pieces_eq_splitOn, List.intercalate_splitOn]

theorem pieces_chainPath (h : ∀ name ∈ chainNames owner c, '.' ∉ name.toList) :
    (Text.pieces '.' (chainPath owner c).toList).map String.ofList = chainNames owner c := by
  have hdots : ∀ l ∈ (chainNames owner c).map String.toList, '.' ∉ l := List.forall_mem_map.2 h
  rw [toList_chainPath, Text.pieces_eq_splitOn, List.splitOn_intercalate _ hdots (by simp [chainNames]), List.map_map]
  simp

/-- The path of a pin is that of its chain. -/
theorem pinPath_eq (hc : g.chain p = .ok c) (howner : g.node? c.rootPin.node = some owner) :
    g.pinPath p = .ok (chainPath owner c) := by
  rw [pinPath, hc, Checked.ok_bind, node_eq_ok.2 howner]
  rfl

/-! ## What is found -/

theorem mem_of_firstNamed (h : g.firstNamed name pins = .ok (some p)) :
    p ∈ pins ∧ ∃ pin, g.pin? p = some pin ∧ pin.name = name := by
  obtain ⟨hmem, htest⟩ := Checked.mem_of_findM? h
  obtain ⟨pin, hpin, hname⟩ := Checked.bind_eq_ok.1 htest
  exact ⟨hmem, pin, pin_eq_ok.1 hpin, of_decide_eq_true (Except.ok.inj hname)⟩

/-- Going down the names of sub-pins makes the chain longer by these names. -/
theorem WellFormed.chain_of_descend (h : g.WellFormed) (hc : g.chain p = .ok c)
    (hdescend : g.descend p names = .ok (some q)) :
    ∃ lower, g.chain q = .ok { c with below := c.below ++ lower } ∧ lower.map (·.name) = names := by
  induction names generalizing p c with
  | nil =>
    cases hdescend
    exact ⟨[], by simpa using hc, rfl⟩
  | cons name names ih =>
    rw [descend] at hdescend
    obtain ⟨pin, hpin, hdescend⟩ := Checked.bind_eq_ok.1 hdescend
    obtain ⟨found, hfound, hrest⟩ := Checked.bind_eq_ok.1 hdescend
    cases found with
    | none => cases hrest
    | some sub =>
      obtain ⟨hsub, subPin, hsubPin, rfl⟩ := mem_of_firstNamed hfound
      obtain ⟨subPin', hsubPin', hparent⟩ := h.below (pin_eq_ok.1 hpin) hsub
      cases hsubPin.symm.trans hsubPin'
      obtain ⟨lower, hchain, hnames⟩ := ih (chain_of_parent hsubPin hparent hc) hrest
      exact ⟨subPin :: lower, by simpa using hchain, by simp [hnames]⟩

/-- The path of what is found is the text that was looked up. -/
theorem WellFormed.pinPath_of_findByPath (h : g.WellFormed) {path : String}
    (hfind : g.findByPath path = .ok (some p)) : g.pinPath p = .ok path := by
  unfold findByPath at hfind
  split at hfind
  · next nodeName pinName names hpieces =>
    split at hfind
    · cases hfind
    · next n hn =>
      obtain ⟨found, hfound, hdescend⟩ := Checked.bind_eq_ok.1 hfind
      cases found with
      | none => cases hdescend
      | some root =>
        obtain ⟨owner, howner, hfirst⟩ := Checked.bind_eq_ok.1 hfound
        rw [node_eq_ok] at howner
        obtain ⟨hroot, rootPin, hrootPin, rfl⟩ := mem_of_firstNamed hfirst
        obtain ⟨rootPin', hrootPin', rfl, hparent⟩ := h.listed howner hroot
        cases hrootPin.symm.trans hrootPin'
        obtain ⟨lower, hchain, rfl⟩ := h.chain_of_descend (chainWithin_of_root hrootPin hparent) hdescend
        have hname : owner.name = nodeName := by
          obtain ⟨hlt, hname, -⟩ := List.findIdx?_eq_some_iff_getElem.1 hn
          cases howner.symm.trans (List.getElem?_eq_getElem hlt)
          exact of_decide_eq_true hname
        rw [pinPath_eq hchain howner]
        exact congrArg _ (chainPath_eq_of_pieces (by rw [hpieces, ← hname]; rfl))
  · cases hfind

/-! ## Names that lead back -/

/-- Names tell apart the nodes, the root pins of a node and the sub-pins of a pin, and no name contains a
separator of paths. -/
structure DistinctNames (g : Graph) : Prop where
  nodes : (g.nodes.map (·.name)).Nodup
  roots : g.pins.Pairwise fun a b => a.parent = none → b.parent = none → a.node = b.node → a.name ≠ b.name
  subs : ∀ q < g.pins.length, g.pins.Pairwise fun a b => a.parent = some q → b.parent = some q → a.name ≠ b.name
  nodeDots : ∀ node ∈ g.nodes, '.' ∉ node.name.toList
  pinDots : ∀ pin ∈ g.pins, '.' ∉ pin.name.toList

/-- A pin is the first of its name if it is the only one. -/
theorem firstNamed_eq (hpins : ∀ p ∈ pins, ∃ pin, g.pin? p = some pin) (hmem : p ∈ pins) (hp : g.pin? p = some pin)
    (hunique : ∀ q pin', q ∈ pins → g.pin? q = some pin' → pin'.name = pin.name → q = p) :
    g.firstNamed pin.name pins = .ok (some p) := by
  obtain ⟨found, hfound, -⟩ := WellFormed.exists_firstNamed pin.name pins hpins
  cases found with
  | none =>
    have htest := Checked.false_of_findM? hfound p hmem
    rw [pin_eq_ok.2 hp] at htest
    exact absurd (Except.ok.inj htest) (by simp)
  | some q =>
    obtain ⟨hq, pin', hpin', hname⟩ := mem_of_firstNamed hfound
    rw [hfound, hunique q pin' hq hpin' hname]

theorem descend_append (h : g.descend p names = .ok (some q)) : g.descend p (names ++ names') = g.descend q names' := by
  induction names generalizing p with
  | nil =>
    cases h
    rfl
  | cons name names ih =>
    rw [descend] at h
    obtain ⟨pin, hpin, h⟩ := Checked.bind_eq_ok.1 h
    obtain ⟨found, hfound, h⟩ := Checked.bind_eq_ok.1 h
    rw [List.cons_append, descend, hpin, Checked.ok_bind, hfound, Checked.ok_bind]
    cases found with
    | none => cases h
    | some sub => exact ih h

/-- The names of a chain lead down from its root pin. -/
theorem WellFormed.descend_chain (h : g.WellFormed) (hnames : g.DistinctNames) {steps : Nat}
    (hc : g.chainWithin steps p = .ok c) : g.descend c.root (c.below.map (·.name)) = .ok (some p) := by
  induction steps generalizing p c with
  | zero => cases hc
  | succ steps ih =>
    obtain ⟨pin, hp, ⟨-, rfl⟩ | ⟨parent, upper, hparent, hupper, rfl⟩⟩ := chainWithin_cases hc
    · rfl
    · obtain ⟨above, habove, hmem, -⟩ := h.above hp hparent
      have hfirst : g.firstNamed pin.name above.subPins = .ok (some p) := by
        refine firstNamed_eq (fun sub hsub => ?_) hmem hp fun q pin' hq hpin' hname => ?_
        · obtain ⟨lower, hlower, -⟩ := h.below habove hsub
          exact ⟨lower, hlower⟩
        · obtain ⟨lower, hlower, hsame⟩ := h.below habove hq
          cases hpin'.symm.trans hlower
          have hdistinct := hnames.subs parent (List.getElem?_eq_some_iff.1 habove).1
          exact index_eq_of_pairwise hdistinct hpin' hp (fun hne => hne hsame hparent hname)
            fun hne => hne hparent hsame hname.symm
      show g.descend upper.root ((upper.below ++ [pin]).map (·.name)) = _
      rw [List.map_append, descend_append (ih hupper), List.map_singleton, descend, pin_eq_ok.2 habove, Checked.ok_bind,
        hfirst]
      rfl

theorem WellFormed.findByPath_chainPath (h : g.WellFormed) (hnames : g.DistinctNames) (hc : g.chain p = .ok c)
    (howner : g.node? c.rootPin.node = some owner) : g.findByPath (chainPath owner c) = .ok (some p) := by
  have hdots : ∀ name ∈ chainNames owner c, '.' ∉ name.toList := by
    obtain ⟨hroot, hbelow⟩ := mem_chainWithin hc
    refine List.forall_mem_cons.2 ⟨hnames.nodeDots owner (List.mem_of_getElem? howner), ?_⟩
    refine List.forall_mem_cons.2 ⟨hnames.pinDots _ hroot, List.forall_mem_map.2 fun pin hpin => ?_⟩
    exact hnames.pinDots pin (hbelow pin hpin)
  obtain ⟨hroot, hparent⟩ := chainWithin_root hc
  have hindex : g.nodes.findIdx? (·.name = owner.name) = some c.rootPin.node := by
    obtain ⟨hlt, hget⟩ := List.getElem?_eq_some_iff.1 howner
    refine List.findIdx?_eq_some_iff_getElem.2 ⟨hlt, by simp [hget], fun n hn hname => ?_⟩
    have hother := List.getElem?_eq_getElem (Nat.lt_trans hn hlt)
    exact Nat.ne_of_lt hn (node_eq_of_name_eq hnames.nodes hother howner (of_decide_eq_true hname))
  have hfirst : g.firstNamed c.rootPin.name owner.pins = .ok (some c.root) := by
    refine firstNamed_eq (fun q hq => ?_) (h.onNode hroot hparent howner) hroot fun q pin' hq hpin' hname => ?_
    · obtain ⟨pin', hpin', -⟩ := h.listed howner hq
      exact ⟨pin', hpin'⟩
    · obtain ⟨listed, hlisted, hsame, hfree⟩ := h.listed howner hq
      cases hpin'.symm.trans hlisted
      exact index_eq_of_pairwise hnames.roots hpin' hroot (fun hne => hne hfree hparent hsame hname) fun hne =>
        hne hparent hfree hsame.symm hname.symm
  rw [findByPath, pieces_chainPath hdots]
  simp only [chainNames, hindex, findPin]
  rw [node_eq_ok.2 howner, Checked.ok_bind, hfirst, Checked.ok_bind]
  exact h.descend_chain hnames hc

/-- In a graph without structural issues, every look-up of a text comes to an end, and the path of a pin that
it finds is that text. If names tell apart what is in one place and contain no separator, the path of every
pin leads back to it. -/
theorem paths_resolve (g : Graph) (h : g.structureIssues = []) :
    (∀ path, ∃ found, g.findByPath path = .ok found ∧ ∀ p, found = some p → g.pinPath p = .ok path) ∧
    (g.DistinctNames → ∀ p pin, g.pin? p = some pin →
      ∃ path, g.pinPath p = .ok path ∧ g.findByPath path = .ok (some p)) := by
  have hwf := wellFormed_of_structureIssues h
  refine ⟨fun path => ?_, fun hnames p pin hp => ?_⟩
  · obtain ⟨found, hfound⟩ := hwf.exists_findByPath path
    refine ⟨found, hfound, ?_⟩
    rintro p rfl
    exact hwf.pinPath_of_findByPath hfound
  · obtain ⟨c, hc⟩ := hwf.rooted hp
    obtain ⟨owner, howner⟩ := hwf.owned (chainWithin_root hc).1
    exact ⟨chainPath owner c, pinPath_eq hc howner, hwf.findByPath_chainPath hnames hc howner⟩

/-- Two nodes with pins of the same names, some of them below each other. -/
def twinMarks : Graph where
  nodes := [{ name := "Left", kind := .branch, pins := [0, 3] }, { name := "Right", kind := .branch, pins := [4] }]
  pins :=
    [{ node := 0, name := "Mark", direction := .input, typeName := "Mark", subPins := [1] },
      { node := 0, name := "Axis", direction := .input, typeName := "Axis", parent := some 0, subPins := [2] },
      { node := 0, name := "Mark", direction := .input, typeName := "double", parent := some 1 },
      { node := 0, name := "Axis", direction := .input, typeName := "Axis" },
      { node := 1, name := "Mark", direction := .input, typeName := "Mark", subPins := [5] },
      { node := 1, name := "Axis", direction := .input, typeName := "Axis", parent := some 4 }]

theorem paths_resolve_twinMarks : twinMarks.structureIssues = [] ∧ twinMarks.DistinctNames ∧
    twinMarks.pinPath 2 = .ok "Left.Mark.Axis.Mark" ∧ twinMarks.findByPath "Left.Mark.Axis.Mark" = .ok (some 2) := by
  have hissues : twinMarks.structureIssues = [] := by decide
  have hnames : twinMarks.DistinctNames := ⟨by decide, by decide, by decide, by decide, by decide⟩
  have hpath : twinMarks.pinPath 2 = .ok "Left.Mark.Axis.Mark" := by decide +kernel
  obtain ⟨path, hpath', hfind⟩ := (paths_resolve twinMarks hissues).2 hnames 2 _ rfl
  cases hpath.symm.trans hpath'
  exact ⟨hissues, hnames, hpath, hfind⟩

-- A separator inside a name: the path is taken for that of a sub-pin, which is not there.
example : (Graph.mk [{ name := "Left", kind := .branch, pins := [0] }]
    [{ node := 0, name := "Mark.Axis", direction := .input, typeName := "Axis" }]).findByPath "Left.Mark.Axis" =
      .ok none := by
  decide +kernel

end Graph
end NodeGraph
