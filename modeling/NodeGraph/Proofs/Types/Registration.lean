import Mathlib.Data.List.Nodup
import NodeGraph.Proofs.Types.DefaultText
import NodeGraph.Proofs.Types.Layout

/-!
# Histories of definitions

Definitions are made one after the other, and some of them fail. A history keeps what each of them came to,
and goes on with the registry that is left (`history`). What one definition keeps, a history keeps
(`history_keeps`): names stay where they are and stay different, the types of fields stay registered, and
types stay aligned (`Regular`). Under a name is the last type that was put there (`get?_of_history`). So every
registered type has a zero value, and no type is unknown where the text of a value is decoded, unless a type
contains itself.
-/
namespace NodeGraph.TypeRegistry

variable {r r' : TypeRegistry} {name : String} {info : TypeInfo} {d : TypeDefinition} {ds : List TypeDefinition}

/-! ## Histories -/

/-- A definition with what it came to. -/
structure Call where
  definition : TypeDefinition
  answer : Except TypeError TypeInfo
deriving DecidableEq

variable {log : List Call}

/-- The definitions with what they came to, and the registry they leave. -/
def history (r : TypeRegistry) : List TypeDefinition → Checked (List Call × TypeRegistry)
  | [] => return ([], r)
  | d :: ds => do
    let (answer, left) ← (define d).run.run r
    let (log, last) ← left.history ds
    return (⟨d, answer⟩ :: log, last)

/-- The last type that was put under a name. -/
def lastDefined (log : List Call) (name : String) : Option TypeInfo :=
  log.reverse.findSome? fun call => if call.definition.name = name then call.answer.toOption else none

theorem history_cons (h : r.history (d :: ds) = .ok (log, r')) : ∃ answer left rest,
    (define d).run.run r = .ok (answer, left) ∧ left.history ds = .ok (rest, r') ∧ log = ⟨d, answer⟩ :: rest := by
  obtain ⟨⟨answer, left⟩, hdefine, h⟩ := Checked.bind_eq_ok.1 h
  obtain ⟨⟨rest, last⟩, hrest, h⟩ := Checked.bind_eq_ok.1 h
  cases h
  exact ⟨answer, left, rest, hdefine, hrest, rfl⟩

/-- A history in two parts. -/
theorem history_append {earlier later : List TypeDefinition} (h : r.history (earlier ++ later) = .ok (log, r')) :
    ∃ first middle rest, r.history earlier = .ok (first, middle) ∧ middle.history later = .ok (rest, r') := by
  induction earlier generalizing r log with
  | nil => exact ⟨[], r, log, rfl, h⟩
  | cons d earlier ih =>
    obtain ⟨answer, left, rest, hdefine, hrest, -⟩ := history_cons h
    obtain ⟨first, middle, rest', hfirst, hmiddle⟩ := ih hrest
    refine ⟨⟨d, answer⟩ :: first, middle, rest', ?_, hmiddle⟩
    simp only [history, hdefine, Checked.ok_bind, hfirst]
    rfl

/-- What each definition with a layout keeps is kept by a history. -/
theorem history_keeps {P : TypeRegistry → Prop}
    (hstep : ∀ {r d layout}, P r → (r.layout d).run = .ok (.ok layout) → P (r.insert (typeOf d layout)))
    (h : r.history ds = .ok (log, r')) (hr : P r) : P r' := by
  induction ds generalizing r log with
  | nil =>
    cases h
    exact hr
  | cons d ds ih =>
    obtain ⟨answer, left, rest, hdefine, hrest, -⟩ := history_cons h
    obtain ⟨e, -, -, rfl⟩ | ⟨layout, hlayout, -, rfl⟩ := define_cases hdefine
    · exact ih hrest hr
    · exact ih hrest (hstep hr hlayout)

/-! ## Names -/

def names (r : TypeRegistry) : List String := r.types.map TypeInfo.name

theorem isSome_get?_iff : (r.get? name).isSome = true ↔ name ∈ r.names := by
  rw [get?, List.find?_isSome, names, List.mem_map]
  simp

/-- A name that is there keeps its place, and one that is not comes last. -/
theorem names_insert : (r.insert info).names = if info.name ∈ r.names then r.names else r.names ++ [info.name] := by
  by_cases hname : info.name ∈ r.names
  · rw [insert, if_pos (isSome_get?_iff.2 hname), if_pos hname]
    show ((r.types.map _).map _) = r.types.map _
    rw [List.map_map]
    refine List.map_congr_left fun t _ => ?_
    by_cases ht : t.name = info.name
    · simp [ht]
    · simp [ht]
  · rw [insert, if_neg (mt isSome_get?_iff.1 hname), if_neg hname]
    simp [names]

theorem names_prefix_insert : r.names <+: (r.insert info).names := by
  rw [names_insert]
  split
  · exact List.prefix_rfl
  · exact List.prefix_append _ _

theorem names_prefix_of_history (h : r.history ds = .ok (log, r')) : r.names <+: r'.names :=
  history_keeps (P := fun later => r.names <+: later.names) (fun hr _ => hr.trans names_prefix_insert) h List.prefix_rfl

theorem nodup_names_insert (hr : r.names.Nodup) : (r.insert info).names.Nodup := by
  rw [names_insert]
  split
  · exact hr
  · next hname => exact List.nodup_append.2 ⟨hr, by simp, by rintro a ha b hb rfl; simp_all⟩

/-- With different names, every type is the one under its name. -/
theorem get?_of_mem (hr : r.names.Nodup) (hinfo : info ∈ r.types) : r.get? info.name = some info := by
  obtain ⟨found, hfound⟩ := Option.isSome_iff_exists.1 (isSome_get?_iff.2 (List.mem_map_of_mem hinfo))
  have hname := name_of_get? hfound
  rw [hfound, List.inj_on_of_nodup_map hr (List.mem_of_find?_eq_some hfound) hinfo hname]

/-! ## Definitions -/

theorem lastDefined_cons (call : Call) : lastDefined (call :: log) name =
    (lastDefined log name).or (if call.definition.name = name then call.answer.toOption else none) := by
  simp [lastDefined, List.findSome?_append]

/-- Under a name is the last type that was put there, or else what was there before. -/
theorem get?_of_history (h : r.history ds = .ok (log, r')) (name : String) :
    r'.get? name = (lastDefined log name).or (r.get? name) := by
  induction ds generalizing r log with
  | nil =>
    cases h
    rfl
  | cons d ds ih =>
    obtain ⟨answer, left, rest, hdefine, hrest, rfl⟩ := history_cons h
    rw [ih hrest, lastDefined_cons, Option.or_assoc]
    congr 1
    obtain ⟨e, -, rfl, rfl⟩ | ⟨layout, -, rfl, rfl⟩ := define_cases hdefine
    · simp [Except.toOption]
    · rw [get?_insert]
      show (if d.name = name then _ else _) = (if d.name = name then _ else _ : Option TypeInfo).or _
      split <;> rfl

/-- The calls of a history are the definitions, and a type has the name and the kind it was defined with. -/
theorem calls_of_history (h : r.history ds = .ok (log, r')) : log.map Call.definition = ds ∧
    ∀ call ∈ log, ∀ info, call.answer = .ok info →
      info.name = call.definition.name ∧ info.kind = call.definition.kind := by
  induction ds generalizing r log with
  | nil =>
    cases h
    simp
  | cons d ds ih =>
    obtain ⟨answer, left, rest, hdefine, hrest, rfl⟩ := history_cons h
    obtain ⟨hmap, hcalls⟩ := ih hrest
    refine ⟨by rw [List.map_cons, hmap], List.forall_mem_cons.2 ⟨?_, hcalls⟩⟩
    rintro info rfl
    obtain ⟨e, -, hanswer, -⟩ | ⟨layout, -, hanswer, -⟩ := define_cases hdefine
    · cases hanswer
    · cases hanswer
      exact ⟨rfl, rfl⟩

/-- A definition that fails leaves the registry as it is. -/
theorem eq_of_define_error {e : TypeError} (h : (define d).run.run r = .ok (.error e, r')) : r' = r := by
  obtain ⟨e', -, -, hleft⟩ | ⟨layout, -, hanswer, -⟩ := define_cases h
  · exact hleft
  · cases hanswer

/-- The only fault of a definition is a size beyond a word. -/
theorem eq_overflow_of_define (hr : r.Aligned) {fault : Fault} (h : (define d).run.run r = .error fault) :
    fault = .overflow := by
  obtain ⟨-, hrun⟩ | ⟨-, ⟨e, hrun⟩ | ⟨layout, hrun, -⟩⟩ := define_cases_of_aligned hr d
  all_goals cases h.symm.trans hrun
  rfl

/-! ## What a history keeps -/

theorem mem_insert {t : TypeInfo} (h : t ∈ (r.insert info).types) : t = info ∨ t ∈ r.types := by
  unfold insert at h
  split at h
  · obtain ⟨t', ht', rfl⟩ := List.mem_map.1 h
    split
    · exact .inl rfl
    · exact .inr ht'
  · simpa [or_comm] using h

theorem Aligned.insert (hr : r.Aligned) (hinfo : info.Aligned) : (r.insert info).Aligned := by
  intro t ht
  obtain rfl | ht := mem_insert ht
  · exact hinfo
  · exact hr t ht

theorem aligned_builtin : builtin.Aligned := by
  intro info hinfo
  simp only [builtin, List.mem_cons, List.not_mem_nil, or_false] at hinfo
  rcases hinfo with rfl | rfl | rfl | rfl | rfl | rfl | rfl <;> exact ⟨by decide, by decide⟩

/-- What is true of a registry after all definitions that were made. -/
structure Regular (r : TypeRegistry) : Prop where
  distinct : r.names.Nodup
  builtins : builtin.names <+: r.names
  closed : ∀ {info fields}, info ∈ r.types → info.kind = .struct fields → ∀ field ∈ fields, field.typeName ∈ r.names
  aligned : r.Aligned

theorem reachable_of_history (h : r.history ds = .ok (log, r')) (hr : r.Reachable) : r'.Reachable :=
  history_keeps (fun hr hlayout => hr.register (register_of_layout hlayout)) h hr

theorem nodup_names_of_history (h : builtin.history ds = .ok (log, r)) : r.names.Nodup :=
  history_keeps (P := fun r => r.names.Nodup) (fun hr _ => nodup_names_insert hr) h (by decide)

theorem aligned_of_history (h : builtin.history ds = .ok (log, r)) : r.Aligned :=
  history_keeps (fun hr hlayout => hr.insert (hr.typeOf (laidOut_of_layout hr hlayout))) h aligned_builtin

theorem regular_of_history (h : builtin.history ds = .ok (log, r)) : r.Regular where
  distinct := nodup_names_of_history h
  builtins := names_prefix_of_history h
  closed hinfo hkind field hfield := isSome_get?_iff.1 <|
    (reachable_of_history h .builtin).closed (get?_of_mem (nodup_names_of_history h) hinfo) hkind field hfield
  aligned := aligned_of_history h

/-! ## Values of registered types -/

/-- Where the types of all fields are registered, decoding comes to no unknown type below a registered one. -/
theorem ne_unknownType_of_decodeWithin (hr : r.Closed) {depth : Nat} {typeName : String} {text : List Char}
    {e : TypeError} (hinfo : r.get? typeName = some info)
    (h : (r.decodeWithin depth typeName text).run = .ok (.error e)) (name : String) : e ≠ .unknownType name := by
  have hinvalid (typeName text reason name : String) :
      TypeError.invalidDefault typeName text reason ≠ .unknownType name := by simp
  exact ((hr.followed fun e => ∀ name, e ≠ .unknownType name).ends_decodeWithin hinvalid ⟨info, hinfo⟩ text).error e h
    name

/-- After any definitions, some of which may have failed or replaced others, names are different and in their
places, the types of fields are registered and all types aligned; under a name is its last definition, a
definition that fails leaves the registry as it is, and only a size beyond a word is a fault. If no type
contains itself, every registered type has a zero value, and decoding a text for it comes to no unknown type.
-/
theorem history_regular (h : builtin.history ds = .ok (log, r)) :
    r.Regular ∧
    (∀ earlier later first middle, ds = earlier ++ later → builtin.history earlier = .ok (first, middle) →
      middle.names <+: r.names) ∧
    (∀ name, r.get? name = (lastDefined log name).or (builtin.get? name)) ∧
    (log.map Call.definition = ds ∧ ∀ call ∈ log, ∀ info, call.answer = .ok info →
      info.name = call.definition.name ∧ info.kind = call.definition.kind) ∧
    (∀ d e left, (define d).run.run r = .ok (.error e, left) → left = r) ∧
    (∀ d fault, (define d).run.run r = .error fault → fault = .overflow) ∧
    (r.Acyclic → ∀ info ∈ r.types, (∃ zero, (r.zeroValue info.name).run = .ok (.ok zero)) ∧
      ∀ text, ∃ answer, (r.decode info.name text).run = .ok answer ∧ ∀ name, answer ≠ .error (.unknownType name)) := by
  have hclosed : r.Closed := (reachable_of_history h .builtin).closed
  refine ⟨regular_of_history h, ?_, get?_of_history h, calls_of_history h, fun d e left => eq_of_define_error,
    fun d fault => eq_overflow_of_define (aligned_of_history h), ?_⟩
  · rintro earlier later first middle rfl hfirst
    obtain ⟨first', middle', rest, hfirst', hrest⟩ := history_append h
    cases hfirst.symm.trans hfirst'
    exact names_prefix_of_history hrest
  · intro hacyclic info hinfo
    have hget := get?_of_mem (nodup_names_of_history h) hinfo
    constructor
    · obtain ⟨result, hresult⟩ := answers_zeroValue hacyclic info.name
      obtain ⟨zero, rfl⟩ := exists_of_zeroWithin hclosed hget hresult
      exact ⟨zero, hresult⟩
    · intro text
      obtain ⟨answer, hanswer⟩ := answers_decode hacyclic info.name text
      refine ⟨answer, hanswer, ?_⟩
      rintro name rfl
      exact ne_unknownType_of_decodeWithin hclosed hget hanswer name rfl

/-- A definition that is replaced, and one that fails. -/
def markHistory : List TypeDefinition :=
  [⟨"Axis", .struct [⟨"Along", "double"⟩]⟩, ⟨"Ring", .struct [⟨"Center", "Point"⟩]⟩, axisType, labelType, markType]

/-- The first definition of the axis is replaced in its place, and that of the ring is refused. -/
theorem history_regular_markHistory : ∃ log, builtin.history markHistory = .ok (log, markTypes) ∧ markTypes.Regular ∧
    lastDefined log "Axis" = some ⟨"Axis", axisType.kind, 1, 1⟩ ∧ lastDefined log "Ring" = none ∧
    markTypes.Acyclic ∧ ∃ zero, (markTypes.zeroValue "Mark").run = .ok (.ok zero) := by
  have hrun : ((builtin.history markHistory).toOption.any fun result => decide (result.2 = markTypes ∧
      lastDefined result.1 "Axis" = some ⟨"Axis", axisType.kind, 1, 1⟩ ∧
      lastDefined result.1 "Ring" = none)) = true := by
    decide +kernel
  obtain ⟨⟨log, left⟩, hhistory, rfl, haxis, hring⟩ := Checked.exists_ok_of_any hrun
  obtain ⟨hregular, -, -, -, -, -, hvalues⟩ := history_regular hhistory
  have hmark : (⟨"Mark", markType.kind, 40, 8⟩ : TypeInfo) ∈ markTypes.types := by decide
  exact ⟨log, hhistory, hregular, haxis, hring, acyclic_markTypes, (hvalues acyclic_markTypes _ hmark).1⟩

end NodeGraph.TypeRegistry
