import NodeGraph.Proofs.Lowering.Keys
import NodeGraph.Proofs.Lowering.Renaming
import NodeGraph.Proofs.Sharing.Components

/-!
# What registers become when storage is shared

Without sharing a root pin has a register of its own, named by its path. With sharing it has that of its
group. Keys that are not paths are the same in both. So each register becomes one register
(`Context.exists_renames`), as long as a path tells what pin it is of, and a group holds one variable at
most. The latter follows when no pin is the target of two links (`Tree.eq_of_variables`).
-/
namespace NodeGraph

open Relation

/-! ## Variables in groups -/

namespace Tree

variable {t : Tree} {p q r : Proxy}

/-- Each pin is the target of one link at most. -/
def SingleSource (t : Tree) : Prop := ∀ l ∈ t.links, ∀ l' ∈ t.links, l.target = l'.target → l = l'

/-- A link into a variable or a parameter leads to its input side, and writes it. -/
def WritesVariables (t : Tree) : Prop :=
  ∀ l ∈ t.links, ∀ {id pin node}, l.target.pin? = some id → t.graph.pin? id = some pin →
    t.graph.node? pin.node = some node → node.kind.isStorage = true → pin.direction.isInputSide = true

/-- Pins of one group have their value from one pin. -/
theorem exists_common_source (h : t.SingleSource) (hpq : EqvGen t.Shares p q) :
    ∃ r, ReflTransGen t.Shares r p ∧ ReflTransGen t.Shares r q := by
  have hunique : Relator.RightUnique (Function.swap t.Shares) := by
    rintro target p q ⟨l, hl, -, rfl, htarget⟩ ⟨l', hl', -, rfl, htarget'⟩
    rw [h l hl l' hl' (htarget.trans htarget'.symm)]
  induction hpq with
  | rel p q hpq => exact ⟨p, .refl, .single hpq⟩
  | refl p => exact ⟨p, .refl, .refl⟩
  | symm p q _ ih =>
    obtain ⟨r, hp, hq⟩ := ih
    exact ⟨r, hq, hp⟩
  | trans p q s _ _ ih ih' =>
    obtain ⟨r, hp, hq⟩ := ih
    obtain ⟨r', hq', hs⟩ := ih'
    -- On the way back from the pin in the middle there is no choice.
    rcases ReflTransGen.total_of_right_unique hunique hq.swap hq'.swap with hr | hr
    · exact ⟨r', (reflTransGen_swap.1 hr).trans hp, hs⟩
    · exact ⟨r, hp, (reflTransGen_swap.1 hr).trans hs⟩

theorem eq_of_variable (h : t.WritesVariables) (hp : Lowering.isVariablePin t.graph p = .ok true)
    (hr : ReflTransGen t.Shares r p) : r = p := by
  obtain ⟨id, pin, node, hid, hpin, hnode, hkind⟩ := Lowering.exists_node_of_isVariablePin hp
  rcases hr.cases_tail with rfl | ⟨q, -, l, hl, hshareable, -, rfl⟩
  · rfl
  · obtain ⟨-, j, -, target, owner, -, -, -, hj, htarget, -, -, howner, hno⟩ := hshareable
    cases hj.symm.trans hid
    cases htarget.symm.trans hpin
    cases howner.symm.trans hnode
    exact absurd ⟨hkind, h l hl hid hpin hnode hkind⟩ hno

/-- A group holds one variable at most. -/
theorem eq_of_variables (h : t.SingleSource) (hwrites : t.WritesVariables) (hpq : EqvGen t.Shares p q)
    (hp : Lowering.isVariablePin t.graph p = .ok true) (hq : Lowering.isVariablePin t.graph q = .ok true) :
    p = q := by
  obtain ⟨r, hr, hr'⟩ := exists_common_source h hpq
  rw [← eq_of_variable hwrites hp hr, eq_of_variable hwrites hq hr']

end Tree

namespace Lowering

/-! ## Sites of root pins -/

/-- What is at different sites is in different cells. -/
theorem Site.Holds.site_eq {site site' : Site} {a : Storage} {o o' : Operand}
    (hnamed : ∀ {key o}, a.keyed.lookup key = some o → a.Named key o)
    (h : site.Holds a o) (h' : site'.Holds a o') (heq : o.cell = o'.cell) : site = site' := by
  obtain ⟨hmemory, hindex⟩ : o.memory = o'.memory ∧ o.index = o'.index := Cell.mk.inj heq
  have hexternal {key : String} {o : Operand} (h : a.keyed.lookup key = some o) : o.memory ≠ .external := by
    obtain ⟨-, table, -, ht, -⟩ := hnamed h
    intro hmemory
    rw [hmemory] at ht
    cases ht
  cases site with
  | register key =>
    cases site' with
    | register key' => rw [(hnamed h).key_eq (hnamed h') hmemory hindex]
    | external index =>
      cases h'
      exact absurd hmemory (hexternal h)
  | external index =>
    cases h
    cases site' with
    | register key' => exact absurd hmemory.symm (hexternal h')
    | external index' =>
      cases h'
      cases hindex
      rfl

namespace Context

variable {cx : Context} {sharing : Sharing} {p : Proxy} {site site' x y : Site} {path : String}
  {a b : Storage} {o o' : Operand}

/-- A variable that is the only one in its group is where it is without sharing. -/
theorem rootSite_of_variable (hself : p ∈ cx.sharing.group p) (hp : isVariablePin cx.tree.graph p = .ok true)
    (hone : ∀ q ∈ cx.sharing.group p, isVariablePin cx.tree.graph q = .ok true → q = p)
    (h : cx.rootSite p = .ok (some site)) : cx.variableSite p = .ok (some site) := by
  rcases rootSite_cases h with ⟨q, hfound, h⟩ | ⟨hnone, -⟩
  · obtain ⟨hq, hvariable⟩ := Checked.mem_of_findM? hfound
    rw [← hone q hq hvariable]
    exact h
  · cases hp.symm.trans (Checked.false_of_findM? hnone p hself)

theorem rootSite_unshared (hunshared : cx.sharing = {}) (h : cx.rootSite p = .ok (some site)) :
    isVariablePin cx.tree.graph p = .ok true ∧ cx.variableSite p = .ok (some site) ∨
    isVariablePin cx.tree.graph p = .ok false ∧ ∃ path, p.path cx.tree.graph = .ok path ∧ site = .register path := by
  have hgroup : cx.sharing.group p = [p] := by rw [hunshared]; rfl
  have hleast : cx.sharing.representative p = p := by rw [hunshared]; rfl
  rcases rootSite_cases h with ⟨member, hfound, hsite⟩ | ⟨hnone, path, hpath, rfl⟩
  · obtain ⟨hmem, hvariable⟩ := Checked.mem_of_findM? hfound
    rw [hgroup, List.mem_singleton] at hmem
    subst hmem
    exact .inl ⟨hvariable, hsite⟩
  · rw [hleast] at hpath
    exact .inr ⟨Checked.false_of_findM? hnone p (by simp [hgroup]), path, hpath, rfl⟩

/-! ## Registers with and without sharing -/

/-- What is at a site without sharing is at the other with it. -/
inductive Becomes (cx : Context) (sharing : Sharing) : Site → Site → Prop
  | same (site : Site) : Becomes cx sharing site site
  | pin {p : Proxy} {site site' : Site} : p.IsRoot cx.tree.graph → cx.rootSite p = .ok (some site) →
      (cx.sharedBy sharing).rootSite p = .ok (some site') → Becomes cx sharing site site'

section Becomes

variable (hunshared : cx.sharing = {}) (hparts : sharing.Partitions cx.tree.Shares)
  (hone : ∀ {p q}, EqvGen cx.tree.Shares p q → isVariablePin cx.tree.graph p = .ok true →
    isVariablePin cx.tree.graph q = .ok true → p = q)
  (hnames : cx.tree.graph.PlainNames)
  (hmade : ∀ {key o}, b.keyed.lookup key = some o → ':' ∉ key.toList → ∃ q : Proxy, q.IsRoot cx.tree.graph ∧
    (sharing.group q).findM? (m := Checked) (isVariablePin cx.tree.graph) = .ok none ∧
    (sharing.representative q).path cx.tree.graph = .ok key)

include hunshared hparts hone

/-- A site stays, or is the register of a pin that is not a variable. -/
theorem Becomes.eq_or_path (h : cx.Becomes sharing site x) :
    x = site ∨ ∃ p path, p.IsRoot cx.tree.graph ∧ p.path cx.tree.graph = .ok path ∧ site = .register path ∧
      (cx.sharedBy sharing).rootSite p = .ok (some x) := by
  cases h with
  | same => exact .inl rfl
  | @pin p _ _ hp hsite hsite' =>
    rcases rootSite_unshared hunshared hsite with ⟨hvariable, hsite⟩ | ⟨-, path, hpath, rfl⟩
    · have hself : p ∈ (cx.sharedBy sharing).sharing.group p := hparts.self p
      have hsite' := rootSite_of_variable hself hvariable
        (fun q hq hvariable' => hone ((hparts.mem_group p q).1 hq).symm hvariable' hvariable) hsite'
      exact .inl (Option.some.inj (Except.ok.inj (hsite'.symm.trans hsite)))
    · exact .inr ⟨p, path, hp, hpath, rfl, hsite'⟩

omit hunshared hone

include hnames hmade

/-- If with sharing there is a register with the path of a pin for a name, it is that pin's. -/
theorem rootSite_of_lookup (hp : p.IsRoot cx.tree.graph) (hpath : p.path cx.tree.graph = .ok path)
    (ho : b.keyed.lookup path = some o) (h : (cx.sharedBy sharing).rootSite p = .ok (some x)) :
    x = .register path := by
  obtain ⟨q, hq, hnone, hleast⟩ := hmade ho (Proxy.colon_notMem_path hnames.bare hp.isSome hpath)
  obtain ⟨hmem, -⟩ := hparts.representative_least q
  have hroot := (Tree.isRoot_of_eqvGen ((hparts.mem_group _ _).1 hmem)).1 hq
  obtain rfl := Proxy.path_injective hnames hroot hp hleast hpath
  rw [← hparts.group_eq hmem] at hnone
  rcases rootSite_cases h with ⟨member, hfound, -⟩ | ⟨-, path', hpath', rfl⟩
  · cases hnone.symm.trans hfound
  · have hpath' : (sharing.representative (sharing.representative q)).path cx.tree.graph = .ok path' := hpath'
    rw [hparts.representative_eq hmem, hpath] at hpath'
    cases hpath'
    rfl

include hunshared hone

theorem Becomes.unique (h : cx.Becomes sharing site x) (h' : cx.Becomes sharing site y) (hx : x.Holds b o)
    (hy : y.Holds b o') : x = y := by
  rcases h.eq_or_path hunshared hparts hone with rfl | ⟨p, path, hp, hpath, rfl, hsite⟩ <;>
    rcases h'.eq_or_path hunshared hparts hone with rfl | ⟨q, path', hq, hpath', heq, hsite'⟩
  · rfl
  · subst heq
    exact (rootSite_of_lookup hparts hnames hmade hq hpath' hx hsite').symm
  · exact rootSite_of_lookup hparts hnames hmade hp hpath hy hsite
  · cases heq
    obtain rfl := Proxy.path_injective hnames hp hq hpath hpath'
    exact Option.some.inj (Except.ok.inj (hsite.symm.trans hsite'))

/-- Each register becomes one register. -/
theorem exists_renames (hnamed : ∀ {key o}, a.keyed.lookup key = some o → a.Named key o) :
    ∃ ρ, cx.Renames sharing a b ρ := by
  have hchoice (c : Cell) : ∃ c', ∀ {site site' : Site} {o o' : Operand}, cx.Becomes sharing site site' →
      site.Holds a o → site'.Holds b o' → o.cell = c → o'.cell = c' := by
    by_cases hc : ∃ (site site' : Site) (o o' : Operand), cx.Becomes sharing site site' ∧ site.Holds a o ∧
        site'.Holds b o' ∧ o.cell = c
    · obtain ⟨site, site', o, o', h, ho, ho', rfl⟩ := hc
      refine ⟨o'.cell, fun {site1 site1' o1 o1'} h1 ho1 ho1' hcell => ?_⟩
      obtain rfl := ho1.site_eq hnamed ho hcell
      obtain rfl := h1.unique hunshared hparts hone hnames hmade h ho1' ho'
      rw [ho1'.unique ho']
    · refine ⟨c, fun {site1 site1' o1 o1'} h1 ho1 ho1' hcell => ?_⟩
      exact absurd ⟨site1, site1', o1, o1', h1, ho1, ho1', hcell⟩ hc
  choose ρ hρ using hchoice
  exact ⟨ρ,
    { external := fun index => (hρ _ (.same (.external index)) rfl rfl rfl).symm
      key := fun {key o o'} ho ho' => (hρ _ (.same (.register key)) ho ho' rfl).symm
      pin := fun _ hid hroot hsite hsite' ho ho' =>
        (hρ _ (.pin (Proxy.isRoot_withPin hroot) hsite hsite') ho ho' rfl).symm }⟩

end Becomes
end Context
end Lowering
end NodeGraph
