import Mathlib.Data.List.Nodup
import NodeGraph.Proofs.Graph.Parents

/-!
# Building graphs

A graph says twice where a pin belongs: in the pin, and in the list of the node or of the parent pin. The operations
that build a graph keep the two in step. All lists are determined by the places that the pins give (`Orderly`): a node
lists its root pins and a pin its sub-pins, in order of their ids. A new pin is the last of its list, and its parent was
there before it, so parents have an end. Hence a graph that was built has no structural issue, whatever was added in
which order (`build_coherent`).
-/
namespace NodeGraph

/-! ## Places -/

/-- Where a pin belongs: to a node and, if it is a sub-pin, to a parent. -/
structure PinPlace where
  node : NodeId
  parent : Option PinId

namespace PinPlace

/-- What lists a pin of this place: a node or a parent. -/
def owner (a : PinPlace) : NodeId ⊕ PinId := a.parent.elim (.inl a.node) .inr

/-- The place of a root pin of a node. -/
def isRootOf (n : NodeId) (a : PinPlace) : Bool := a.node = n && a.parent.isNone

/-- The place of a sub-pin of a pin. -/
def isBelow (q : PinId) (a : PinPlace) : Bool := a.parent = some q

/-- The numbers of the places of some kind, in order. -/
def positions (kind : PinPlace → Bool) (places : List PinPlace) : List PinId :=
  (places.zipIdx.filter fun entry => kind entry.1).map Prod.snd

variable {kind : PinPlace → Bool} {places : List PinPlace} {a : PinPlace} {n : NodeId} {p q : PinId}

theorem isRootOf_iff : isRootOf n a = true ↔ a.node = n ∧ a.parent = none := by
  rw [isRootOf, Bool.and_eq_true, decide_eq_true_eq, Option.isNone_iff_eq_none]

theorem isBelow_iff : isBelow q a = true ↔ a.parent = some q := decide_eq_true_iff

theorem positions_snoc : positions kind (places ++ [a]) =
    positions kind places ++ if kind a then [places.length] else [] := by
  cases hkind : kind a <;> simp [positions, List.zipIdx_append, hkind]

theorem mem_positions : p ∈ positions kind places ↔ ∃ a, places[p]? = some a ∧ kind a = true := by
  simp [positions, List.mem_filter, List.mem_zipIdx_iff_getElem?]

theorem nodup_positions : (positions kind places).Nodup := by
  have hsub : (positions kind places).Sublist (places.zipIdx.map Prod.snd) := List.filter_sublist.map _
  rw [List.zipIdx_map_snd] at hsub
  exact hsub.nodup (List.nodup_range' _)

theorem positions_eq_nil (h : ∀ a ∈ places, kind a = false) : positions kind places = [] := by
  refine List.eq_nil_iff_forall_not_mem.2 fun p hp => ?_
  obtain ⟨a, ha, hkind⟩ := mem_positions.1 hp
  rw [h a (List.mem_of_getElem? ha)] at hkind
  cases hkind

end PinPlace

def Pin.place (pin : Pin) : PinPlace := ⟨pin.node, pin.parent⟩

namespace Graph

open PinPlace

variable {g g' : Graph} {n : NodeId} {p q : PinId} {node : Node} {pin above : Pin} {spec : PinSpec}

/-- The places of the pins, in order of their ids. -/
def places (g : Graph) : List PinPlace := g.pins.map Pin.place

theorem getElem?_places (hp : g.pin? p = some pin) : g.places[p]? = some pin.place := by
  rw [places, List.getElem?_map, show g.pins[p]? = some pin from hp]
  rfl

/-- What each pin was added to, in order of their ids. -/
def owners (g : Graph) : List (NodeId ⊕ PinId) := g.places.map PinPlace.owner

theorem length_owners : g.owners.length = g.pins.length := by rw [owners, places, List.length_map, List.length_map]

theorem exists_pin_of_places {a : PinPlace} (h : g.places[p]? = some a) :
    ∃ pin, g.pin? p = some pin ∧ pin.place = a := by
  rw [places, List.getElem?_map] at h
  exact Option.map_eq_some_iff.1 h

/-- Nodes and pins list what the places of the pins say, nodes exist, and parents come first. -/
structure Orderly (g : Graph) : Prop where
  roots : ∀ {n node}, g.node? n = some node → node.pins = positions (isRootOf n) g.places
  subs : ∀ {q pin}, g.pin? q = some pin → pin.subPins = positions (isBelow q) g.places
  owned : ∀ a ∈ g.places, a.node < g.nodes.length
  earlier : ∀ {p q : PinId} {a : PinPlace}, g.places[p]? = some a → a.parent = some q →
    q < p ∧ ∃ b : PinPlace, g.places[q]? = some b ∧ b.node = a.node

theorem orderly_empty : Orderly {} := ⟨by simp [node?], by simp [pin?], by simp [places], by simp [places]⟩

/-! ## Orderly graphs are well-formed -/

namespace Orderly

theorem linked (h : g.Orderly) : g.Linked where
  listed hn hp := by
    rw [h.roots hn, mem_positions] at hp
    obtain ⟨a, ha, hkind⟩ := hp
    obtain ⟨pin, hpin, rfl⟩ := exists_pin_of_places ha
    exact ⟨pin, hpin, isRootOf_iff.1 hkind⟩
  owned {p pin} hp := by
    have hlt := h.owned _ (List.mem_of_getElem? (getElem?_places hp))
    exact ⟨g.nodes[pin.node], List.getElem?_eq_getElem hlt⟩
  above hp hparent := by
    obtain ⟨-, b, hb, hnode⟩ := h.earlier (getElem?_places hp) hparent
    obtain ⟨upper, hupper, rfl⟩ := exists_pin_of_places hb
    refine ⟨upper, hupper, ?_, hnode⟩
    rw [h.subs hupper, mem_positions]
    exact ⟨_, getElem?_places hp, isBelow_iff.2 hparent⟩
  onNode hp hroot hn := by
    rw [h.roots hn, mem_positions]
    exact ⟨_, getElem?_places hp, isRootOf_iff.2 ⟨rfl, hroot⟩⟩
  below hp hsub := by
    rw [h.subs hp, mem_positions] at hsub
    obtain ⟨a, ha, hkind⟩ := hsub
    obtain ⟨lower, hlower, rfl⟩ := exists_pin_of_places ha
    exact ⟨lower, hlower, isBelow_iff.1 hkind⟩

/-- Parents come first, so they have an end. -/
theorem exists_chain (h : g.Orderly) (hp : g.pin? p = some pin) : ∃ c, g.chain p = .ok c := by
  induction p using Nat.strongRecOn generalizing pin with
  | ind p ih =>
    cases hparent : pin.parent with
    | none => exact ⟨_, chainWithin_of_root hp hparent⟩
    | some q =>
      obtain ⟨hlt, b, hb, -⟩ := h.earlier (getElem?_places hp) hparent
      obtain ⟨upper, hupper, -⟩ := exists_pin_of_places hb
      obtain ⟨c, hc⟩ := ih q hlt hupper
      exact ⟨_, chain_of_parent hp hparent hc⟩

theorem wellFormed (h : g.Orderly) : g.WellFormed := ⟨h.linked, h.exists_chain⟩

end Orderly

/-- A pin is in one list, once: in that of its node if it is a root pin, and in that of its parent otherwise. -/
structure ListedOnce (g : Graph) (p : PinId) (pin : Pin) : Prop where
  node : ∀ {n node}, g.node? n = some node → node.pins.count p = if pin.node = n ∧ pin.parent = none then 1 else 0
  parent : ∀ {q above}, g.pin? q = some above → above.subPins.count p = if pin.parent = some q then 1 else 0

theorem count_positions (hp : g.pin? p = some pin) (kind : PinPlace → Bool) :
    (positions kind g.places).count p = if kind pin.place then 1 else 0 := by
  rw [nodup_positions.count]
  refine if_congr ?_ rfl rfl
  rw [mem_positions, getElem?_places hp]
  simp

theorem Orderly.listedOnce (h : g.Orderly) (hp : g.pin? p = some pin) : g.ListedOnce p pin where
  node hn := by
    rw [h.roots hn, count_positions hp]
    exact if_congr isRootOf_iff rfl rfl
  parent hq := by
    rw [h.subs hq, count_positions hp]
    exact if_congr isBelow_iff rfl rfl

/-! ## Operations -/

namespace Orderly

/-- A pin comes to the end of the list of its node or of its parent, and has no sub-pins. -/
theorem snoc (h : g.Orderly) {a : PinPlace} (hplaces : g'.places = g.places ++ [a])
    (hlength : g'.nodes.length = g.nodes.length) (hnode : a.node < g.nodes.length)
    (hparent : ∀ {q}, a.parent = some q → ∃ b : PinPlace, g.places[q]? = some b ∧ b.node = a.node)
    (hroots : ∀ {n node'}, g'.node? n = some node' → ∃ node, g.node? n = some node ∧
      node'.pins = node.pins ++ if isRootOf n a then [g.places.length] else [])
    (hsubs : ∀ {q pin'}, g'.pin? q = some pin' → (∃ pin, g.pin? q = some pin ∧
      pin'.subPins = pin.subPins ++ if isBelow q a then [g.places.length] else []) ∨
        q = g.places.length ∧ pin'.subPins = []) : g'.Orderly where
  roots hn := by
    obtain ⟨node, hnode, hpins⟩ := hroots hn
    rw [hpins, h.roots hnode, hplaces, positions_snoc]
  subs hq := by
    obtain ⟨pin, hpin, hpins⟩ | ⟨rfl, hpins⟩ := hsubs hq
    · rw [hpins, h.subs hpin, hplaces, positions_snoc]
    · rw [hpins, hplaces]
      refine (positions_eq_nil fun b hb => Bool.eq_false_iff.2 fun hbelow => ?_).symm
      rw [isBelow_iff] at hbelow
      -- The number of the new pin is not that of any parent.
      rcases List.mem_append.1 hb with hb | hb
      · obtain ⟨p, hp⟩ := List.mem_iff_getElem?.1 hb
        have hlt := (List.getElem?_eq_some_iff.1 hp).1
        exact Nat.lt_asymm (h.earlier hp hbelow).1 hlt
      · obtain ⟨c, hc, -⟩ := hparent (List.mem_singleton.1 hb ▸ hbelow)
        exact Nat.lt_irrefl _ (List.getElem?_eq_some_iff.1 hc).1
  owned := by
    rw [hplaces, hlength]
    exact List.forall_mem_append.2 ⟨h.owned, List.forall_mem_singleton.2 hnode⟩
  earlier {p q b} hb hq := by
    rw [hplaces] at hb ⊢
    have hkeep {c : PinPlace} (hc : g.places[q]? = some c) : (g.places ++ [a])[q]? = some c := by
      rw [List.getElem?_append_left (List.getElem?_eq_some_iff.1 hc).1, hc]
    obtain hb | ⟨rfl, rfl⟩ := eq_or_of_getElem?_snoc hb
    · obtain ⟨hqp, c, hc, hsame⟩ := h.earlier hb hq
      exact ⟨hqp, c, hkeep hc, hsame⟩
    · obtain ⟨c, hc, hsame⟩ := hparent hq
      exact ⟨(List.getElem?_eq_some_iff.1 hc).1, c, hkeep hc, hsame⟩

theorem addNode (h : g.Orderly) (name : String) (kind : NodeKind) : (g.addNode name kind).1.Orderly where
  roots hn := by
    obtain hn | ⟨rfl, rfl⟩ := eq_or_of_getElem?_snoc hn
    · exact h.roots hn
    · refine (positions_eq_nil fun a ha => Bool.eq_false_iff.2 fun hroot => ?_).symm
      exact Nat.ne_of_lt (h.owned a ha) (isRootOf_iff.1 hroot).1
  subs := h.subs
  owned a ha := by
    rw [Graph.addNode, List.length_append]
    exact Nat.lt_add_right _ (h.owned a ha)
  earlier := h.earlier

theorem setDeclaredArity (h : g.Orderly) (hn : g.node? n = some node) (arity : Nat) :
    ∃ g', g.setDeclaredArity n arity = .ok g' ∧
      g'.Orderly ∧ g'.nodes.length = g.nodes.length ∧ g'.owners = g.owners := by
  refine ⟨{ g with nodes := g.nodes.set n { node with declaredArity := some arity } }, ?_, ?_, List.length_set, rfl⟩
  · rw [Graph.setDeclaredArity, node_eq_ok.2 hn]
    rfl
  · refine ⟨fun {m other} hm => ?_, h.subs, fun a ha => ?_, h.earlier⟩
    · obtain ⟨rfl, rfl⟩ | ⟨-, hm⟩ := eq_or_of_getElem?_set hm
      · have hpins := h.roots hn
        exact hpins
      · exact h.roots hm
    · rw [List.length_set]
      exact h.owned a ha

theorem addPin (h : g.Orderly) (hn : g.node? n = some node) (spec : PinSpec) :
    ∃ g', g.addPin n spec = .ok (g', g.pins.length) ∧
      g'.Orderly ∧ g'.nodes.length = g.nodes.length ∧ g'.owners = g.owners ++ [.inl n] := by
  have hlength : g.places.length = g.pins.length := List.length_map _
  have hplaces : (g.pins ++ [newPin n none spec]).map Pin.place = g.places ++ [⟨n, none⟩] := List.map_append
  refine ⟨⟨g.nodes.set n { node with pins := node.pins ++ [g.pins.length] }, g.pins ++ [newPin n none spec]⟩, ?_, ?_,
    List.length_set, (congrArg _ hplaces).trans List.map_append⟩
  · rw [Graph.addPin, node_eq_ok.2 hn]
    rfl
  · refine h.snoc hplaces List.length_set (List.getElem?_eq_some_iff.1 hn).1 (fun hq => by cases hq)
      (fun {m node'} hm => ?_) fun {q pin'} hq => ?_
    · obtain ⟨rfl, rfl⟩ | ⟨hne, hm⟩ := eq_or_of_getElem?_set hm
      · exact ⟨node, hn, by simp [isRootOf, hlength]⟩
      · exact ⟨node', hm, by simp [isRootOf, hne]⟩
    · obtain hq | ⟨rfl, rfl⟩ := eq_or_of_getElem?_snoc hq
      · exact .inl ⟨pin', hq, by simp [isBelow]⟩
      · exact .inr ⟨hlength.symm, rfl⟩

theorem addSubPin (h : g.Orderly) (hq : g.pin? q = some above) (spec : PinSpec) :
    ∃ g', g.addSubPin q spec = .ok (g', g.pins.length) ∧
      g'.Orderly ∧ g'.nodes.length = g.nodes.length ∧ g'.owners = g.owners ++ [.inr q] := by
  have hlength : g.places.length = g.pins.length := List.length_map _
  have hplace := getElem?_places hq
  -- The list of the parent changes, and the place of the parent does not.
  have hset : (g.pins.set q { above with subPins := above.subPins ++ [g.pins.length] }).map Pin.place = g.places := by
    obtain ⟨hlt, hget⟩ := List.getElem?_eq_some_iff.1 hplace
    rw [List.map_set]
    exact (congrArg _ hget.symm).trans (List.set_getElem_self hlt)
  have hplaces : (g.pins.set q { above with subPins := above.subPins ++ [g.pins.length] } ++
      [newPin above.node (some q) spec]).map Pin.place = g.places ++ [⟨above.node, some q⟩] := by
    rw [List.map_append, hset]
    rfl
  refine ⟨⟨g.nodes, g.pins.set q { above with subPins := above.subPins ++ [g.pins.length] } ++
    [newPin above.node (some q) spec]⟩, ?_, ?_, rfl, (congrArg _ hplaces).trans List.map_append⟩
  · rw [Graph.addSubPin, pin_eq_ok.2 hq]
    rfl
  · refine h.snoc hplaces rfl (h.owned above.place (List.mem_of_getElem? hplace)) (fun hparent => ?_)
      (fun {n node'} hn => ⟨node', hn, by simp [isRootOf]⟩) fun {p pin'} hp => ?_
    · cases hparent
      exact ⟨above.place, hplace, rfl⟩
    · obtain hp | ⟨rfl, rfl⟩ := eq_or_of_getElem?_snoc hp
      · obtain ⟨rfl, rfl⟩ | ⟨hne, hp⟩ := eq_or_of_getElem?_set hp
        · exact .inl ⟨above, hq, by simp [isBelow, hlength]⟩
        · exact .inl ⟨pin', hp, by simp [isBelow, hne]⟩
      · exact .inr ⟨by rw [List.length_set, hlength], rfl⟩

end Orderly

end Graph

/-! ## Sequences of operations -/

/-- A call that changes a graph. -/
inductive Edit where
  | addNode (name : String) (kind : NodeKind)
  | setDeclaredArity (n : NodeId) (arity : Nat)
  | addPin (n : NodeId) (spec : PinSpec)
  | addSubPin (parent : PinId) (spec : PinSpec)

/-- An id as it is handed out. -/
inductive Handle where
  | node (n : NodeId)
  | pin (p : PinId)

namespace Handle

def node? : Handle → Option NodeId
  | node n => some n
  | pin _ => none

def pin? : Handle → Option PinId
  | node _ => none
  | pin p => some p

end Handle

namespace Edit

/-- Whether the call names a node and a pin among the first `nodes` and `pins`. -/
def refers (nodes pins : Nat) : Edit → Bool
  | addNode .. => true
  | setDeclaredArity n _ => n < nodes
  | addPin n _ => n < nodes
  | addSubPin parent _ => parent < pins

def newNodes : Edit → Nat
  | addNode .. => 1
  | _ => 0

/-- What a new pin is added to. -/
def owner? : Edit → Option (NodeId ⊕ PinId)
  | addPin n _ => some (.inl n)
  | addSubPin parent _ => some (.inr parent)
  | _ => none

def newPins (e : Edit) : Nat := e.owner?.toList.length

end Edit

/-- Whether each call names nodes and pins that exist when it is made, if `nodes` and `pins` exist before the first. -/
def admissible (nodes pins : Nat) : List Edit → Bool
  | [] => true
  | e :: edits => e.refers nodes pins && admissible (nodes + e.newNodes) (pins + e.newPins) edits

namespace Graph

def edit (g : Graph) : Edit → Checked (Graph × Option Handle)
  | .addNode name kind => let (g, n) := g.addNode name kind; return (g, some (.node n))
  | .setDeclaredArity n arity => return (← g.setDeclaredArity n arity, none)
  | .addPin n spec => do let (g, p) ← g.addPin n spec; return (g, some (.pin p))
  | .addSubPin parent spec => do let (g, p) ← g.addSubPin parent spec; return (g, some (.pin p))

/-- Makes the calls in order. Answers the ids that they hand out. -/
def build (g : Graph) : List Edit → Checked (Graph × List Handle)
  | [] => return (g, [])
  | e :: edits => do
    let (g, handle) ← g.edit e
    let (g, handles) ← g.build edits
    return (g, handle.toList ++ handles)

variable {g g' g'' : Graph} {e : Edit} {edits : List Edit} {handles handles' : List Handle}

/-- The ids handed out from `g` to `g'` are the next ones, without a gap. -/
structure Numbers (g g' : Graph) (handles : List Handle) : Prop where
  nodes : List.range g.nodes.length ++ handles.filterMap Handle.node? = List.range g'.nodes.length
  pins : List.range g.pins.length ++ handles.filterMap Handle.pin? = List.range g'.pins.length

theorem Numbers.append (h : g.Numbers g' handles) (h' : g'.Numbers g'' handles') :
    g.Numbers g'' (handles ++ handles') where
  nodes := by rw [List.filterMap_append, ← List.append_assoc, h.nodes, h'.nodes]
  pins := by rw [List.filterMap_append, ← List.append_assoc, h.pins, h'.pins]

/-- What a call with existing ids does to an orderly graph. -/
structure Grows (g g' : Graph) (e : Edit) (handles : List Handle) : Prop where
  orderly : g'.Orderly
  nodes : g'.nodes.length = g.nodes.length + e.newNodes
  owners : g'.owners = g.owners ++ e.owner?.toList
  numbers : g.Numbers g' handles

theorem Grows.pins (h : g.Grows g' e handles) : g'.pins.length = g.pins.length + e.newPins := by
  rw [← length_owners, h.owners, List.length_append, length_owners, Edit.newPins]

theorem numbers_none (hnodes : g'.nodes.length = g.nodes.length) (howners : g'.owners = g.owners) :
    g.Numbers g' [] := by
  constructor
  · rw [hnodes]
    exact List.append_nil _
  · rw [← length_owners (g := g'), howners, length_owners]
    exact List.append_nil _

theorem numbers_pin {owner : NodeId ⊕ PinId} (hnodes : g'.nodes.length = g.nodes.length)
    (howners : g'.owners = g.owners ++ [owner]) : g.Numbers g' [.pin g.pins.length] := by
  constructor
  · rw [hnodes]
    exact List.append_nil _
  · rw [← length_owners (g := g'), howners, List.length_append, length_owners, List.length_singleton, List.range_succ]
    rfl

theorem Orderly.edit (h : g.Orderly) (hrefers : e.refers g.nodes.length g.pins.length = true) :
    ∃ g' handle, g.edit e = .ok (g', handle) ∧ g.Grows g' e handle.toList := by
  cases e with
  | addNode name kind =>
    have hnodes : (g.addNode name kind).1.nodes.length = g.nodes.length + 1 := List.length_append
    refine ⟨(g.addNode name kind).1, some (.node g.nodes.length), rfl, h.addNode name kind, hnodes,
      (List.append_nil _).symm, ?_, List.append_nil _⟩
    rw [hnodes, List.range_succ]
    rfl
  | setDeclaredArity n arity =>
    have hlt : n < g.nodes.length := of_decide_eq_true hrefers
    obtain ⟨g', hg', horderly, hnodes, howners⟩ := h.setDeclaredArity (List.getElem?_eq_getElem hlt) arity
    refine ⟨g', none, ?_, horderly, hnodes, howners.trans (List.append_nil _).symm, numbers_none hnodes howners⟩
    rw [Graph.edit, hg']
    rfl
  | addPin n spec =>
    have hlt : n < g.nodes.length := of_decide_eq_true hrefers
    obtain ⟨g', hg', horderly, hnodes, howners⟩ := h.addPin (List.getElem?_eq_getElem hlt) spec
    refine ⟨g', some (.pin g.pins.length), ?_, horderly, hnodes, howners, numbers_pin hnodes howners⟩
    rw [Graph.edit, hg']
    rfl
  | addSubPin parent spec =>
    have hlt : parent < g.pins.length := of_decide_eq_true hrefers
    obtain ⟨g', hg', horderly, hnodes, howners⟩ := h.addSubPin (List.getElem?_eq_getElem hlt) spec
    refine ⟨g', some (.pin g.pins.length), ?_, horderly, hnodes, howners, numbers_pin hnodes howners⟩
    rw [Graph.edit, hg']
    rfl

theorem Orderly.build (h : g.Orderly) (hedits : admissible g.nodes.length g.pins.length edits = true) :
    ∃ g' handles, g.build edits = .ok (g', handles) ∧ g'.Orderly ∧ g.Numbers g' handles ∧
      g'.owners = g.owners ++ edits.filterMap Edit.owner? := by
  induction edits generalizing g with
  | nil => exact ⟨g, [], rfl, h, numbers_none rfl rfl, (List.append_nil _).symm⟩
  | cons e edits ih =>
    rw [admissible, Bool.and_eq_true] at hedits
    obtain ⟨g', handle, hedit, hgrows⟩ := h.edit hedits.1
    rw [← hgrows.nodes, ← hgrows.pins] at hedits
    obtain ⟨g'', handles, hbuild, horderly, hnumbers, howners⟩ := ih hgrows.orderly hedits.2
    refine ⟨g'', handle.toList ++ handles, ?_, horderly, hgrows.numbers.append hnumbers, ?_⟩
    · rw [Graph.build, hedit]
      show (do let (g, handles) ← g'.build edits; return (g, handle.toList ++ handles)) = _
      rw [hbuild]
      rfl
    · rw [howners, hgrows.owners, List.append_assoc]
      cases howner : e.owner? <;> simp [howner]

/-- Calls that name nodes and pins that exist build a graph without structure errors, all pins of which
resolve. Ids are handed out from zero without a gap, in the order of the calls, and each pin is listed once:
by the node or the parent it was added to. -/
theorem build_coherent (edits : List Edit) (hedits : admissible 0 0 edits = true) :
    ∃ g handles, Graph.build {} edits = .ok (g, handles) ∧ g.structureIssues = [] ∧
      (handles.filterMap Handle.node? = List.range g.nodes.length ∧
        handles.filterMap Handle.pin? = List.range g.pins.length) ∧
      g.owners = edits.filterMap Edit.owner? ∧
      ∀ p pin, g.pin? p = some pin → g.pinResolves p = true ∧ g.ListedOnce p pin := by
  obtain ⟨g, handles, hbuild, horderly, hnumbers, howners⟩ := orderly_empty.build hedits
  have hwf := horderly.wellFormed
  refine ⟨g, handles, hbuild, hwf.structureIssues_eq, ⟨hnumbers.nodes, hnumbers.pins⟩, howners, fun p pin hp => ?_⟩
  exact ⟨hwf.pinResolves hp, horderly.listedOnce hp⟩

/-- An event with a value pin that has two levels of sub-pins, and a second root pin. -/
def sampleEdits : List Edit :=
  let spec : PinSpec := { name := "Where", direction := .output, typeName := "Vector" }
  [.addNode "Start" (.event "Begin"), .addPin 0 spec, .addSubPin 0 spec, .addNode "Merge" .branch, .addSubPin 1 spec,
    .setDeclaredArity 1 2, .addPin 0 spec]

theorem build_coherent_sampleEdits : admissible 0 0 sampleEdits = true ∧
    ∃ g handles, Graph.build {} sampleEdits = .ok (g, handles) ∧ g.structureIssues = [] ∧
      (handles.filterMap Handle.node? = List.range g.nodes.length ∧
        handles.filterMap Handle.pin? = List.range g.pins.length) ∧
      g.owners = [.inl 0, .inr 0, .inr 1, .inl 0] ∧
      ∀ p pin, g.pin? p = some pin → g.pinResolves p = true ∧ g.ListedOnce p pin :=
  ⟨by decide, build_coherent sampleEdits (by decide)⟩

end Graph
end NodeGraph
