import NodeGraph.Lowering.Register

/-!
# Operands that fit

An operand fits the memory tables if its register is there and its property path belongs to that
register; one of external memory has to name a variable of the host as a whole. Storage only grows:
neither a new register nor a new property path takes anything away, so an operand that fits keeps
fitting (`Fits.mono`).
-/
namespace NodeGraph

/-- The operand names a register of the tables, and its property path is one of that register; or it
names one of the external variables as a whole. -/
def Operand.Fits (tables : MemorySpace → Option MemoryTable) (externals : Nat) (o : Operand) : Prop :=
  match tables o.memory with
  | some t => o.index < t.registers.length ∧
      ∀ k, o.propertyPath = some k → ∃ path, t.propertyPaths[k]? = some path ∧ path.register = o.index
  | none => o.index < externals ∧ o.propertyPath = none

/-- All registers and property paths of `a` are in `b`, under the same numbers. -/
structure MemoryTable.Le (a b : MemoryTable) : Prop where
  registers : a.registers <+: b.registers
  propertyPaths : a.propertyPaths <+: b.propertyPaths

namespace MemoryTable

theorem Le.refl (t : MemoryTable) : t.Le t := ⟨List.prefix_rfl, List.prefix_rfl⟩

theorem Le.trans {a b c : MemoryTable} (h : a.Le b) (h' : b.Le c) : a.Le c :=
  ⟨h.registers.trans h'.registers, h.propertyPaths.trans h'.propertyPaths⟩

theorem le_addRegister (t : MemoryTable) (r : Register) : t.Le (t.addRegister r).1 :=
  ⟨List.prefix_append _ _, List.prefix_rfl⟩

/-- A property path is in the table under the number given for it. -/
theorem internPath_spec (t : MemoryTable) (register : Nat) (segments : String) :
    t.Le (t.internPath register segments).1 ∧
      (t.internPath register segments).1.registers = t.registers ∧
      (t.internPath register segments).1.propertyPaths[(t.internPath register segments).2]? =
        some ⟨register, segments⟩ := by
  unfold internPath
  dsimp only
  split
  · next k hk =>
    obtain ⟨hlt, heq, -⟩ := List.findIdx?_eq_some_iff_getElem.1 hk
    refine ⟨.refl t, rfl, ?_⟩
    rw [List.getElem?_eq_getElem hlt]
    simpa using heq
  · exact ⟨⟨List.prefix_rfl, List.prefix_append _ _⟩, rfl, by simp⟩

end MemoryTable

namespace Lowering.Storage

variable {a b c s s' : Storage} {space : MemorySpace} {externals : Nat}

theorem table?_eq_none : s.table? space = none ↔ space = .external := by
  cases space <;> simp [table?]

theorem table?_setTable {t : MemoryTable} (h : space ≠ .external) (space' : MemorySpace) :
    (s.setTable space t).table? space' = if space' = space then some t else s.table? space' := by
  cases space <;> cases space' <;> simp_all [setTable, table?]

theorem keyed_setTable (space : MemorySpace) (t : MemoryTable) :
    (s.setTable space t).keyed = s.keyed := by
  cases space <;> rfl

theorem ne_external {t : MemoryTable} (ht : s.table? space = some t) : space ≠ .external := by
  rintro rfl
  cases ht

/-- A register is added at the end of its table and in front of the keys. -/
theorem addRegister_eq_some {r : Register} {o : Operand} : s.addRegister space r = some (s', o) ↔
    ∃ t, s.table? space = some t ∧ o = ⟨space, t.registers.length, none⟩ ∧
      s' = { s.setTable space (t.addRegister r).1 with keyed := (r.name, o) :: s.keyed } := by
  rw [addRegister, Option.bind_eq_bind, Option.bind_eq_some_iff]
  refine exists_congr fun t => and_congr_right fun _ => ?_
  rw [← keyed_setTable space (t.addRegister r).1]
  constructor
  · intro h
    cases h
    exact ⟨rfl, rfl⟩
  · rintro ⟨rfl, rfl⟩
    rfl

/-- A member is found or added in the table of its register. -/
theorem addPath_eq_some {base o : Operand} {segments : String} : s.addPath base segments = some (s', o) ↔
    ∃ t, s.table? base.memory = some t ∧ o = { base with propertyPath := some (t.internPath base.index segments).2 } ∧
      s' = s.setTable base.memory (t.internPath base.index segments).1 := by
  rw [addPath, Option.bind_eq_bind, Option.bind_eq_some_iff]
  refine exists_congr fun t => and_congr_right fun _ => ?_
  constructor
  · intro h
    cases h
    exact ⟨rfl, rfl⟩
  · rintro ⟨rfl, rfl⟩
    rfl

/-- Every table of `a` is a part of the one of `b`. -/
def Le (a b : Storage) : Prop :=
  ∀ space t, a.table? space = some t → ∃ t', b.table? space = some t' ∧ t.Le t'

theorem Le.refl (a : Storage) : a.Le a := fun _ t h => ⟨t, h, .refl t⟩

theorem Le.trans (h : a.Le b) (h' : b.Le c) : a.Le c := by
  intro space t ht
  obtain ⟨t', ht', hle⟩ := h space t ht
  obtain ⟨t'', ht'', hle'⟩ := h' space t' ht'
  exact ⟨t'', ht'', hle.trans hle'⟩

theorem le_setTable {t t' : MemoryTable} (ht : s.table? space = some t) (hle : t.Le t') :
    s.Le (s.setTable space t') := by
  intro space' u hu
  rw [table?_setTable (ne_external ht)]
  split
  · next heq =>
    subst heq
    rw [ht] at hu
    cases hu
    exact ⟨t', rfl, hle⟩
  · exact ⟨u, hu, .refl u⟩

/-! ## Fitting operands -/

/-- The operand fits the tables of the storage. -/
def Holds (s : Storage) (externals : Nat) (o : Operand) : Prop := o.Fits s.table? externals

theorem Holds.mono {o : Operand} (h : s.Holds externals o) (hle : s.Le s') : s'.Holds externals o := by
  unfold Holds Operand.Fits at h ⊢
  cases ht : s.table? o.memory with
  | some t =>
    rw [ht] at h
    obtain ⟨t', ht', hle⟩ := hle _ t ht
    rw [ht']
    refine ⟨Nat.lt_of_lt_of_le h.1 hle.registers.length_le, fun k hk => ?_⟩
    obtain ⟨path, hpath, hreg⟩ := h.2 k hk
    obtain ⟨rest, hrest⟩ := hle.propertyPaths
    refine ⟨path, ?_, hreg⟩
    rw [← hrest, List.getElem?_append_left (List.getElem?_eq_some_iff.1 hpath).1]
    exact hpath
  | none =>
    rw [ht] at h
    rw [table?_eq_none.2 (table?_eq_none.1 ht)]
    exact h

theorem holds_external {index : Nat} (h : index < externals) :
    s.Holds externals { memory := .external, index } := ⟨h, rfl⟩

theorem addRegister_spec {r : Register} {o : Operand} (h : s.addRegister space r = some (s', o)) :
    s.Le s' ∧ s'.Holds externals o ∧ s'.keyed = (r.name, o) :: s.keyed := by
  obtain ⟨t, ht, rfl, rfl⟩ := addRegister_eq_some.1 h
  refine ⟨le_setTable ht (t.le_addRegister r), ?_, rfl⟩
  show Operand.Fits (s.setTable space (t.addRegister r).1).table? externals _
  unfold Operand.Fits
  rw [table?_setTable (ne_external ht), if_pos rfl]
  exact ⟨by simp [MemoryTable.addRegister], by simp⟩

theorem addPath_spec {base o : Operand} {segments : String} (hbase : s.Holds externals base)
    (h : s.addPath base segments = some (s', o)) : s.Le s' ∧ s'.Holds externals o ∧ s'.keyed = s.keyed := by
  obtain ⟨t, ht, rfl, rfl⟩ := addPath_eq_some.1 h
  obtain ⟨hle, hregs, hpath⟩ := t.internPath_spec base.index segments
  refine ⟨le_setTable ht hle, ?_, keyed_setTable _ _⟩
  unfold Holds Operand.Fits at hbase ⊢
  rw [ht] at hbase
  rw [table?_setTable (ne_external ht), if_pos rfl]
  refine ⟨by rw [hregs]; exact hbase.1, fun k hk => ?_⟩
  cases Option.some.inj hk
  exact ⟨_, hpath, rfl⟩

/-! ## Named registers -/

/-- The operand is that of a whole register, which is named by the key. -/
def Named (s : Storage) (key : String) (o : Operand) : Prop :=
  o.propertyPath = none ∧ ∃ table r, s.table? o.memory = some table ∧
    table.registers[o.index]? = some r ∧ r.name = key

variable {key key' : String} {o o' : Operand}

theorem Named.mono (h : a.Named key o) (hle : a.Le b) : b.Named key o := by
  obtain ⟨hwhole, table, r, ht, hr, hname⟩ := h
  obtain ⟨table', ht', hle⟩ := hle _ table ht
  obtain ⟨rest, hrest⟩ := hle.registers
  refine ⟨hwhole, table', r, ht', ?_, hname⟩
  rw [← hrest, List.getElem?_append_left (List.getElem?_eq_some_iff.1 hr).1]
  exact hr

/-- A register has one key. -/
theorem Named.key_eq (h : s.Named key o) (h' : s.Named key' o') (hmemory : o.memory = o'.memory)
    (hindex : o.index = o'.index) : key = key' := by
  obtain ⟨-, table, r, ht, hr, rfl⟩ := h
  obtain ⟨-, table', r', ht', hr', rfl⟩ := h'
  rw [← hmemory, ht] at ht'
  cases ht'
  rw [← hindex, hr] at hr'
  cases hr'
  rfl

theorem named_addRegister {r : Register} (h : s.addRegister space r = some (s', o)) : s'.Named r.name o := by
  obtain ⟨t, ht, rfl, rfl⟩ := addRegister_eq_some.1 h
  refine ⟨rfl, (t.addRegister r).1, r, ?_, by simp [MemoryTable.addRegister], rfl⟩
  exact (table?_setTable (ne_external ht) space).trans (if_pos rfl)

end Lowering.Storage
end NodeGraph
