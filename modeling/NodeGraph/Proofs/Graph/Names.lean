import NodeGraph.Proofs.Graph.WellFormed

/-!
# Names and paths

A path joins names, by `|` behind call sites and by `.` in front of pins. Where no name contains a
separator, a path can be taken apart again, so that pins with one path are one (`Proxy.path_injective` for root
pins, `Proxy.eq_of_path_eq` for all pins of a well-formed graph).
-/
namespace NodeGraph

open Checked

variable {α : Type} {c : α} {a b x y : List α} {steps : Nat}

/-- Text in front of the first of two separators. -/
theorem eq_of_append_cons_eq (ha : c ∉ a) (hb : c ∉ b) (h : a ++ c :: x = b ++ c :: y) : a = b ∧ x = y := by
  induction a generalizing b with
  | nil =>
    cases b with
    | nil => exact ⟨rfl, (List.cons.inj h).2⟩
    | cons d b => exact absurd (List.cons.inj h).1 fun heq => hb (by simp [heq])
  | cons d a ih =>
    cases b with
    | nil => exact absurd (List.cons.inj h).1 fun heq => ha (by simp [← heq])
    | cons d' b =>
      obtain ⟨hd, h⟩ := List.cons.inj h
      obtain ⟨hab, hxy⟩ := ih (fun hm => ha (by simp [hm])) (fun hm => hb (by simp [hm])) h
      exact ⟨by rw [hd, hab], hxy⟩

/-- Where members of a list are pairwise related, two that are not related are one. -/
theorem index_eq_of_pairwise {R : α → α → Prop} {l : List α} {i j : Nat} {a b : α} (h : l.Pairwise R)
    (hi : l[i]? = some a) (hj : l[j]? = some b) (hab : ¬ R a b) (hba : ¬ R b a) : i = j := by
  obtain ⟨hlt, rfl⟩ := List.getElem?_eq_some_iff.1 hi
  obtain ⟨hlt', rfl⟩ := List.getElem?_eq_some_iff.1 hj
  rw [List.pairwise_iff_getElem] at h
  rcases Nat.lt_trichotomy i j with hij | hij | hij
  · exact absurd (h i j hlt hlt' hij) hab
  · exact hij
  · exact absurd (h j i hlt' hlt hij) hba

/-- A name without separators. -/
def IsPlain (name : String) : Prop := ∀ c ∈ name.toList, c ≠ '.' ∧ c ≠ '|' ∧ c ≠ ':'

instance (name : String) : Decidable (IsPlain name) :=
  decidable_of_decidable_of_iff
    (p := name.toList.all fun c => !(['.', '|', ':'].contains c)) (by simp [IsPlain])

namespace Graph

variable {g : Graph} {id : PinId} {path : String} {c : Char}

/-- Names contain no separators. -/
structure BareNames (g : Graph) : Prop where
  node : ∀ node ∈ g.nodes, IsPlain node.name
  pin : ∀ pin ∈ g.pins, IsPlain pin.name

/-- Names contain no separators. Nodes have different names, and so have pins in one place. -/
structure PlainNames (g : Graph) : Prop where
  node : ∀ node ∈ g.nodes, IsPlain node.name
  pin : ∀ pin ∈ g.pins, IsPlain pin.name
  nodes : (g.nodes.map (·.name)).Nodup
  pins : ∀ {id id' pin pin'}, g.pin? id = some pin → g.pin? id' = some pin' → pin.node = pin'.node →
    pin.parent = pin'.parent → pin.name = pin'.name → id = id'

theorem PlainNames.bare (h : g.PlainNames) : g.BareNames := ⟨h.node, h.pin⟩

theorem PlainNames.of_pairwise (hnode : ∀ node ∈ g.nodes, IsPlain node.name)
    (hpin : ∀ pin ∈ g.pins, IsPlain pin.name) (hnodes : (g.nodes.map (·.name)).Nodup)
    (hpins : g.pins.Pairwise fun a b => a.node = b.node → a.parent = b.parent → a.name ≠ b.name) :
    g.PlainNames where
  node := hnode
  pin := hpin
  nodes := hnodes
  pins hid hid' hsame hparent hname :=
    index_eq_of_pairwise hpins hid hid' (fun hne => hne hsame hparent hname) fun hne =>
      hne hsame.symm hparent.symm hname.symm

/-- Nodes with one name are one, where names are different. -/
theorem node_eq_of_name_eq (h : (g.nodes.map (·.name)).Nodup) {n n' : NodeId} {node node' : Node}
    (hn : g.node? n = some node) (hn' : g.node? n' = some node') (heq : node.name = node'.name) : n = n' :=
  index_eq_of_pairwise (List.pairwise_map.1 h) hn hn' (fun hne => hne heq) fun hne => hne heq.symm

/-! ## Pins -/

theorem mem_chainWithin {chain : PinChain} (h : g.chainWithin steps id = .ok chain) :
    chain.rootPin ∈ g.pins ∧ ∀ pin ∈ chain.below, pin ∈ g.pins := by
  induction steps generalizing id chain with
  | zero => cases h
  | succ steps ih =>
    rw [chainWithin] at h
    obtain ⟨pin, hpin, h⟩ := bind_eq_ok.1 h
    have hmem : pin ∈ g.pins := List.mem_of_getElem? (pin_eq_ok.1 hpin)
    split at h
    · cases h
      exact ⟨hmem, by simp⟩
    · obtain ⟨chain', hchain, h⟩ := bind_eq_ok.1 h
      cases h
      refine ⟨(ih hchain).1, fun pin' hpin' => ?_⟩
      rcases List.mem_append.1 hpin' with hpin' | hpin'
      · exact (ih hchain).2 pin' hpin'
      · rw [List.mem_singleton.1 hpin']
        exact hmem

theorem mem_foldl_names (pins : List Pin) (start : String) :
    c ∈ (pins.foldl (fun path pin => path ++ "." ++ pin.name) start).toList ↔
      c ∈ start.toList ∨ ∃ pin ∈ pins, c = '.' ∨ c ∈ pin.name.toList := by
  induction pins generalizing start with
  | nil => simp
  | cons pin pins ih =>
    rw [List.foldl_cons, ih]
    simp [or_assoc]

/-- The characters of the path of a pin. -/
theorem mem_pinPath (h : g.pinPath id = .ok path) : ∃ node ∈ g.nodes, ∃ pins : List Pin,
    (∀ pin ∈ pins, pin ∈ g.pins) ∧
      ∀ c, c ∈ path.toList ↔ c ∈ node.name.toList ∨ c = '.' ∨ ∃ pin ∈ pins, c ∈ pin.name.toList := by
  obtain ⟨chain, hchain, h⟩ := bind_eq_ok.1 h
  obtain ⟨node, hnode, h⟩ := bind_eq_ok.1 h
  cases h
  obtain ⟨hroot, hbelow⟩ := mem_chainWithin hchain
  refine ⟨node, List.mem_of_getElem? (node_eq_ok.1 hnode), chain.rootPin :: chain.below, ?_, fun c => ?_⟩
  · intro pin hpin
    rcases List.mem_cons.1 hpin with rfl | hpin
    · exact hroot
    · exact hbelow pin hpin
  · rw [mem_foldl_names]
    simp only [String.toList_append, List.mem_append, List.mem_cons, exists_eq_or_imp]
    constructor
    · rintro (((h | h) | h) | ⟨pin, hpin, h | h⟩)
      · exact .inl h
      · exact .inr (.inl (by simpa using h))
      · exact .inr (.inr (.inl h))
      · exact .inr (.inl h)
      · exact .inr (.inr (.inr ⟨pin, hpin, h⟩))
    · rintro (h | h | h | ⟨pin, hpin, h⟩)
      · exact .inl (.inl (.inl h))
      · exact .inl (.inl (.inr (by simp [h])))
      · exact .inl (.inr h)
      · exact .inr ⟨pin, hpin, .inr h⟩

end Graph

/-! ## Call sites -/

namespace CallStack

variable {g : Graph} {stack stack' : CallStack} {text text' rest rest' : String} {c : Char}

theorem plain_pathPrefix (h : g.BareNames) (hs : pathPrefix g stack = .ok text) :
    ∀ c ∈ text.toList, c ≠ '.' ∧ c ≠ ':' := by
  induction stack generalizing text with
  | nil =>
    cases hs
    simp
  | cons site stack ih =>
    obtain ⟨node, hnode, hs⟩ := bind_eq_ok.1 hs
    obtain ⟨text', hs', hs⟩ := bind_eq_ok.1 hs
    cases hs
    intro c hc
    simp only [String.toList_append, List.mem_append] at hc
    rcases hc with (hc | hc) | hc
    · have hplain := h.node node (List.mem_of_getElem? (Graph.node_eq_ok.1 hnode)) c hc
      exact ⟨hplain.1, hplain.2.2⟩
    · obtain rfl : c = '|' := by simpa using hc
      exact ⟨by decide, by decide⟩
    · exact ih hs' c hc

/-- Call sites contain a separator, if there are any. -/
theorem eq_nil_or_mem_pathPrefix (hs : pathPrefix g stack = .ok text) : text = "" ∨ '|' ∈ text.toList := by
  cases stack with
  | nil =>
    cases hs
    exact .inl rfl
  | cons site stack =>
    obtain ⟨node, hnode, hs⟩ := bind_eq_ok.1 hs
    obtain ⟨text', hs', hs⟩ := bind_eq_ok.1 hs
    cases hs
    exact .inr (by simp)

/-- Call sites can be told from what follows them. -/
theorem pathPrefix_injective (h : g.PlainNames) (hs : pathPrefix g stack = .ok text)
    (hs' : pathPrefix g stack' = .ok text') (hrest : '|' ∉ rest.toList) (hrest' : '|' ∉ rest'.toList)
    (heq : text ++ rest = text' ++ rest') : stack = stack' ∧ rest = rest' := by
  induction stack generalizing stack' text text' with
  | nil =>
    cases hs
    cases stack' with
    | nil =>
      cases hs'
      simpa using heq
    | cons site' stack' =>
      obtain ⟨node', hnode', hs'⟩ := bind_eq_ok.1 hs'
      obtain ⟨text', -, hs'⟩ := bind_eq_ok.1 hs'
      cases hs'
      exact absurd (by rw [show rest = _ by simpa using heq]; simp) hrest
  | cons site stack ih =>
    obtain ⟨node, hnode, hs⟩ := bind_eq_ok.1 hs
    obtain ⟨text, htext, hs⟩ := bind_eq_ok.1 hs
    cases hs
    cases stack' with
    | nil =>
      cases hs'
      exact absurd (by rw [show rest' = _ by simpa using heq.symm]; simp) hrest'
    | cons site' stack' =>
      obtain ⟨node', hnode', hs'⟩ := bind_eq_ok.1 hs'
      obtain ⟨text', htext', hs'⟩ := bind_eq_ok.1 hs'
      cases hs'
      have hbar {n : NodeId} {node : Node} (hn : g.node n = .ok node) : '|' ∉ node.name.toList := fun hmem =>
        (h.node node (List.mem_of_getElem? (Graph.node_eq_ok.1 hn)) _ hmem).2.1 rfl
      have hchars : node.name.toList ++ '|' :: (text ++ rest).toList =
          node'.name.toList ++ '|' :: (text' ++ rest').toList := by
        have := congrArg String.toList heq
        simpa using this
      obtain ⟨hname, htail⟩ := eq_of_append_cons_eq (hbar hnode) (hbar hnode') hchars
      obtain ⟨rfl, hrest⟩ := ih htext htext' (String.toList_inj.1 htail)
      have hsite := Graph.node_eq_of_name_eq h.nodes (Graph.node_eq_ok.1 hnode) (Graph.node_eq_ok.1 hnode')
        (String.toList_inj.1 hname)
      exact ⟨by rw [hsite], hrest⟩

end CallStack

/-! ## Proxies -/

namespace Proxy

variable {g : Graph} {p q : Proxy} {path : String}

theorem path_of_pin? {id : PinId} (hid : p.pin? = some id) (h : p.path g = .ok path) :
    ∃ sites rest, CallStack.pathPrefix g p.callStack = .ok sites ∧ g.pinPath id = .ok rest ∧
      path = sites ++ rest := by
  obtain ⟨sites, hsites, h⟩ := bind_eq_ok.1 h
  have htarget : p.target = .pin id := by
    unfold pin? at hid
    split at hid
    · next target => rw [target, Option.some.inj hid]
    · cases hid
  rw [htarget] at h
  obtain ⟨rest, hrest, h⟩ := bind_eq_ok.1 h
  cases h
  exact ⟨sites, rest, hsites, hrest, rfl⟩

/-- The path of a pin contains a separator of pins. -/
theorem dot_mem_path (hp : p.pin?.isSome = true) (h : p.path g = .ok path) : '.' ∈ path.toList := by
  obtain ⟨id, hid⟩ := Option.isSome_iff_exists.1 hp
  obtain ⟨sites, rest, -, hrest, rfl⟩ := path_of_pin? hid h
  obtain ⟨node, -, pins, -, hmem⟩ := Graph.mem_pinPath hrest
  rw [String.toList_append, List.mem_append]
  exact .inr ((hmem '.').2 (.inr (.inl rfl)))

/-- The path of a pin contains no colon. -/
theorem colon_notMem_path (hg : g.BareNames) (hp : p.pin?.isSome = true) (h : p.path g = .ok path) :
    ':' ∉ path.toList := by
  obtain ⟨id, hid⟩ := Option.isSome_iff_exists.1 hp
  obtain ⟨sites, rest, hsites, hrest, rfl⟩ := path_of_pin? hid h
  obtain ⟨node, hnode, pins, hpins, hmem⟩ := Graph.mem_pinPath hrest
  rw [String.toList_append, List.mem_append]
  rintro (hc | hc)
  · exact (CallStack.plain_pathPrefix hg hsites _ hc).2 rfl
  · rcases (hmem _).1 hc with hc | hc | ⟨pin, hpin, hc⟩
    · exact (hg.node node hnode _ hc).2.2 rfl
    · exact absurd hc (by decide)
    · exact (hg.pin pin (hpins pin hpin) _ hc).2.2 rfl

/-- Proxies with one path are one if their pins with one path are. -/
theorem eq_of_pinPath (hg : g.PlainNames) {id id' : PinId} (hid : p.pin? = some id) (hid' : q.pin? = some id')
    (h : p.path g = .ok path) (h' : q.path g = .ok path)
    (hpins : ∀ {rest}, g.pinPath id = .ok rest → g.pinPath id' = .ok rest → id = id') : p = q := by
  obtain ⟨sites, rest, hsites, hrest, rfl⟩ := path_of_pin? hid h
  obtain ⟨sites', rest', hsites', hrest', heq⟩ := path_of_pin? hid' h'
  have hbar {id : PinId} {rest : String} (h : g.pinPath id = .ok rest) : '|' ∉ rest.toList := by
    obtain ⟨node, hnode, pins, hpins, hmem⟩ := Graph.mem_pinPath h
    intro hc
    rcases (hmem _).1 hc with hc | hc | ⟨pin, hpin, hc⟩
    · exact (hg.node node hnode _ hc).2.1 rfl
    · exact absurd hc (by decide)
    · exact (hg.pin pin (hpins pin hpin) _ hc).2.1 rfl
  obtain ⟨hstack, rfl⟩ := CallStack.pathPrefix_injective hg hsites hsites' (hbar hrest) (hbar hrest') heq
  obtain rfl := hpins hrest hrest'
  have hself : p.withPin id = q.withPin id := by
    unfold withPin
    rw [hstack]
  rw [← withPin_self hid, ← withPin_self hid']
  exact hself

/-- Root pins with one path are one. -/
theorem path_injective (hg : g.PlainNames) (hp : p.IsRoot g) (hq : q.IsRoot g) (h : p.path g = .ok path)
    (h' : q.path g = .ok path) : p = q := by
  obtain ⟨id, pin, hid, hpin, hroot⟩ := hp
  obtain ⟨id', pin', hid', hpin', hroot'⟩ := hq
  refine eq_of_pinPath hg hid hid' h h' fun {rest} hrest hrest' => ?_
  have hsplit {id : PinId} {pin : Pin} (hpin : g.pin? id = some pin) (hroot : pin.parent.isNone = true)
      (hrest : g.pinPath id = .ok rest) : ∃ node, g.node? pin.node = some node ∧ '.' ∉ node.name.toList ∧
        rest.toList = node.name.toList ++ '.' :: pin.name.toList := by
    have hchain : g.chain id = .ok ⟨id, pin, []⟩ := by
      rw [Graph.chain, Graph.chainWithin, Graph.pin_eq_ok.2 hpin, ok_bind, Option.isNone_iff_eq_none.1 hroot]
      rfl
    rw [Graph.pinPath, hchain, ok_bind] at hrest
    obtain ⟨node, hnode, hrest⟩ := bind_eq_ok.1 hrest
    cases hrest
    have hnode := Graph.node_eq_ok.1 hnode
    exact ⟨node, hnode, fun hmem => (hg.node node (List.mem_of_getElem? hnode) _ hmem).1 rfl, by simp⟩
  obtain ⟨node, hnode, hdot, hchars⟩ := hsplit hpin hroot hrest
  obtain ⟨node', hnode', hdot', hchars'⟩ := hsplit hpin' hroot' hrest'
  obtain ⟨hname, hpinName⟩ := eq_of_append_cons_eq hdot hdot' (hchars.symm.trans hchars')
  have howner := Graph.node_eq_of_name_eq hg.nodes hnode hnode' (String.toList_inj.1 hname)
  have hparent := (Option.isNone_iff_eq_none.1 hroot).trans (Option.isNone_iff_eq_none.1 hroot').symm
  exact hg.pins hpin hpin' howner hparent (String.toList_inj.1 hpinName)

end Proxy

/-! ## Sub-pins -/

/-- A text can be told from what follows its last separator. -/
theorem eq_of_append_cons_eq_right (hx : c ∉ x) (hy : c ∉ y) (h : a ++ c :: x = b ++ c :: y) : a = b ∧ x = y := by
  have hreverse : x.reverse ++ c :: a.reverse = y.reverse ++ c :: b.reverse := by
    simpa using congrArg List.reverse h
  obtain ⟨hends, hfronts⟩ := eq_of_append_cons_eq (by simpa using hx) (by simpa using hy) hreverse
  exact ⟨List.reverse_inj.1 hfronts, List.reverse_inj.1 hends⟩

namespace Graph

variable {g : Graph} {id id' : PinId}

/-- The path of a pin of a node, in terms of the chain above it. -/
def chainPath (owner : Node) (c : PinChain) : String :=
  c.below.foldl (fun path pin => path ++ "." ++ pin.name) (owner.name ++ "." ++ c.rootPin.name)

theorem chainPath_append (owner : Node) (upper : PinChain) (pin : Pin) :
    chainPath owner { upper with below := upper.below ++ [pin] } = chainPath owner upper ++ "." ++ pin.name := by
  simp [chainPath]

theorem dot_mem_chainPath (owner : Node) (c : PinChain) : '.' ∈ (chainPath owner c).toList := by
  rw [chainPath, mem_foldl_names]
  simp

/-- Chains with one path belong to one pin. -/
theorem chainPath_injective (hg : g.PlainNames) (hwf : g.WellFormed) {steps' : Nat} {c c' : PinChain}
    {owner owner' : Node} (hc : g.chainWithin steps id = .ok c) (hc' : g.chainWithin steps' id' = .ok c')
    (howner : g.node? c.rootPin.node = some owner) (howner' : g.node? c'.rootPin.node = some owner')
    (heq : chainPath owner c = chainPath owner' c') : id = id' := by
  have hdot {n : PinId} {pin : Pin} (h : g.pin? n = some pin) : '.' ∉ pin.name.toList := fun hmem =>
    (hg.pin pin (List.mem_of_getElem? h) _ hmem).1 rfl
  have hnode {n : NodeId} {node : Node} (h : g.node? n = some node) : '.' ∉ node.name.toList := fun hmem =>
    (hg.node node (List.mem_of_getElem? h) _ hmem).1 rfl
  -- Both paths end in the name of the pin, and before it is the path of the parent, or the name of the node.
  have hsplit {front front' : String} {pin pin' : Pin} (hpin : '.' ∉ pin.name.toList) (hpin' : '.' ∉ pin'.name.toList)
      (h : front ++ "." ++ pin.name = front' ++ "." ++ pin'.name) : front = front' ∧ pin.name = pin'.name := by
    have hchars : front.toList ++ '.' :: pin.name.toList = front'.toList ++ '.' :: pin'.name.toList := by
      simpa using congrArg String.toList h
    obtain ⟨hfronts, hnames⟩ := eq_of_append_cons_eq_right hpin hpin' hchars
    exact ⟨String.toList_inj.1 hfronts, String.toList_inj.1 hnames⟩
  induction steps generalizing id id' steps' c c' with
  | zero => cases hc
  | succ steps ih =>
    cases steps' with
    | zero => cases hc'
    | succ steps' =>
      obtain ⟨pin, hpin, ⟨hparent, rfl⟩ | ⟨parent, upper, hparent, hupper, rfl⟩⟩ := chainWithin_cases hc
      · obtain ⟨pin', hpin', ⟨hparent', rfl⟩ | ⟨parent', upper', hparent', hupper', rfl⟩⟩ := chainWithin_cases hc'
        · obtain ⟨howners, hnames⟩ := hsplit (hdot hpin) (hdot hpin') heq
          have hsame := node_eq_of_name_eq hg.nodes howner howner' howners
          exact hg.pins hpin hpin' hsame (hparent.trans hparent'.symm) hnames
        · rw [chainPath_append] at heq
          obtain ⟨hfront, -⟩ := hsplit (hdot hpin) (hdot hpin') heq
          exact absurd (hfront ▸ dot_mem_chainPath owner' upper') (hnode howner)
      · rw [chainPath_append] at heq
        obtain ⟨pin', hpin', ⟨hparent', rfl⟩ | ⟨parent', upper', hparent', hupper', rfl⟩⟩ := chainWithin_cases hc'
        · obtain ⟨hfront, -⟩ := hsplit (hdot hpin) (hdot hpin') heq
          exact absurd (hfront ▸ dot_mem_chainPath owner upper) (hnode howner')
        · rw [chainPath_append] at heq
          obtain ⟨hfront, hnames⟩ := hsplit (hdot hpin) (hdot hpin') heq
          obtain rfl := ih hupper hupper' howner howner' hfront
          obtain ⟨above, habove, -, hsame⟩ := hwf.above hpin hparent
          obtain ⟨above', habove', -, hsame'⟩ := hwf.above hpin' hparent'
          cases habove.symm.trans habove'
          exact hg.pins hpin hpin' (hsame.symm.trans hsame') (hparent.trans hparent'.symm) hnames

end Graph

/-- In a well-formed graph, pins with one path are one, below root pins too. -/
theorem Proxy.eq_of_path_eq {g : Graph} {p q : Proxy} {path : String} (hg : g.PlainNames) (hwf : g.WellFormed)
    (hp : p.pin?.isSome = true) (hq : q.pin?.isSome = true) (h : p.path g = .ok path) (h' : q.path g = .ok path) :
    p = q := by
  obtain ⟨id, hid⟩ := Option.isSome_iff_exists.1 hp
  obtain ⟨id', hid'⟩ := Option.isSome_iff_exists.1 hq
  refine eq_of_pinPath hg hid hid' h h' fun {rest} hrest hrest' => ?_
  obtain ⟨c, hc, hrest⟩ := bind_eq_ok.1 hrest
  obtain ⟨owner, howner, hrest⟩ := bind_eq_ok.1 hrest
  obtain ⟨c', hc', hrest'⟩ := bind_eq_ok.1 hrest'
  obtain ⟨owner', howner', hrest'⟩ := bind_eq_ok.1 hrest'
  have hpaths : Graph.chainPath owner c = Graph.chainPath owner' c' :=
    (Except.ok.inj hrest).trans (Except.ok.inj hrest').symm
  exact Graph.chainPath_injective hg hwf hc hc' (Graph.node_eq_ok.1 howner) (Graph.node_eq_ok.1 howner') hpaths

end NodeGraph
