import Mathlib
import NodeGraph.Proofs.Compile.KnownTypes
import NodeGraph.Proofs.Lowering.Mirrors

/-!
# Which operands are mirrored

A program lists for an operand the registers that mirror it. If compilation succeeds, these are the watches of the
variable expressions with that operand whose pins are watched, no more and no less (`compile_mirrors`). The watch
belongs to the group of pins that share storage, so watching several of them lists one mirror.
-/
namespace NodeGraph.Tree

open Lowering

variable {t : Tree} {env : Environment} {options : CompileOptions} {sharing : Sharing}
  {checked prepared s : State} {e e' : ExprId} {p p' : Proxy} {o o' m m' : Operand} {q : Program} {report : Report}

theorem WatchedVar.valueAt (h : t.WatchedVar options e p) : t.ValueAt .var e p := by
  obtain ⟨x, hx, hkind, hp⟩ := h.var
  exact ⟨x, hx, hkind, hp, h.value⟩

theorem WatchedVar.unique (h : t.WatchedVar options e p) (h' : t.WatchedVar options e p') : p = p' := by
  obtain ⟨x, hx, -, hp⟩ := h.var
  exact Option.some.inj (hp.symm.trans (h'.proxy_eq hx))

/-- A lowered expression that is watched has an operand, and the group of its pin has a mirror. -/
structure MirroredAs (t : Tree) (options : CompileOptions) (sharing : Sharing) (s : State) (e : ExprId) (p : Proxy)
    (o m : Operand) : Prop extends t.WatchedVar options e p where
  lowered : t.Lowers e
  operand : s.operands.lookup e = some o
  mirror : ∃ least, (sharing.representative p).path t.graph = .ok least ∧
    s.storage.keyed.lookup (least ++ "::Debug") = some m

/-- Pins of one group have one mirror. -/
theorem MirroredAs.mirror_eq (hs : sharing.Partitions t.Shares) (hgroup : p' ∈ sharing.group p)
    (h : t.MirroredAs options sharing s e p o m) (h' : t.MirroredAs options sharing s e' p' o' m') : m' = m := by
  obtain ⟨least, hleast, hm⟩ := h.mirror
  obtain ⟨least', hleast', hm'⟩ := h'.mirror
  rw [hs.representative_eq hgroup, hleast] at hleast'
  cases hleast'
  exact Option.some.inj (hm'.symm.trans hm)

/-- Nothing is mirrored before setup. -/
theorem Passes.get?_checked (h : t.Passes env options sharing checked prepared s) (o : Operand) :
    checked.restarted.mirrors.get? o = none := by
  have hempty : checked.mirrors = .empty := congrArg State.mirrors h.checked_eq
  show checked.mirrors.get? o = none
  rw [hempty]
  rfl

/-- The mirrors that setup lists. -/
theorem Passes.shows (h : t.Passes env options sharing checked prepared s) :
    Context.Shows ⟨t, env, options, sharing, .setup⟩ checked.restarted prepared :=
  (mirroring_lawful rfl).moves_of_lowerRoots (fun _ he => .root he) trivial h.prepares 0

/-- Without failures, setup comes to the expressions that are lowered. -/
theorem Passes.visited_iff (h : t.Passes env options sharing checked prepared s) (hfailed : prepared.failed = []) :
    e ∈ prepared.visited ↔ t.Lowers e := by
  have hmet {c : ExprId} (hc : prepared.Met c) : c ∈ prepared.visited := hc.resolve_right (by simp [hfailed])
  constructor
  · intro he
    have hnew := (h.shows.met e he).resolve_left (List.not_mem_nil)
    exact hnew.1
  · intro he
    induction he with
    | root hroot => exact hmet (h.met _ hroot)
    | child _ hx hexit hc ih => exact hmet ((h.covered hfailed (.inl ih)).1 _ hx hexit _ hc)

namespace Built

variable (h : t.Built env options q sharing checked prepared s)

include h

theorem prepared_failed : prepared.failed = [] := List.subset_nil.1 (h.failed ▸ h.passes.emit.failed)

/-- Emission lists no mirrors. -/
theorem debugMirrors_eq : q.debugMirrors = prepared.mirrors := h.program ▸ h.passes.addsLate.mirrors

/-- The operand that setup finds for a variable expression is the one it has in the end. -/
theorem operand_eq (hvar : t.ValueAt .var e p) (ho : (e, o) ∈ prepared.operands)
    (ho' : s.operands.lookup e = some o') : o = o' := by
  obtain ⟨id, root, segments, -, -, hat⟩ := hvar.exists_varAt h.issues
  have hempty : checked.operands = [] := congrArg State.operands h.passes.checked_eq
  have hplaced : Context.Placed ⟨t, env, options, sharing, .emit⟩ prepared.storage (e, o) := by
    refine (h.passes.setup.operands (e, o) ho).resolve_left fun hold => ?_
    have hold : (e, o) ∈ checked.operands := hold
    simp [hempty] at hold
  exact ((hat.of_placed hplaced).mono h.passes.emit.storage).unique (hat.locatedAt h.loweredWith (mem_of_lookup ho'))

/-- What setup finds for a watched expression is there in the end. -/
theorem exists_mirroredAs (he : t.Lowers e)
    (hm : Context.Mirrored ⟨t, env, options, sharing, .setup⟩ prepared e o m) :
    ∃ p, t.MirroredAs options sharing s e p o m := by
  obtain ⟨p, least, hvar, ho, hleast, hm⟩ := hm
  have hvisited := (h.passes.visited_iff h.prepared_failed).2 he
  obtain ⟨o', ho'⟩ := hvar.valueAt.exists_operand h.passes hvisited h.failed rfl
  obtain rfl := h.operand_eq hvar.valueAt ho ho'
  exact ⟨p, { hvar with
    lowered := he
    operand := ho'
    mirror := ⟨least, hleast, h.passes.emit.storage.keyed hm⟩ }⟩

/-- What is listed is the mirror of a watched expression. -/
theorem mirroredAs_of_listed (hlisted : Listed q.debugMirrors o m) :
    ∃ e p, t.MirroredAs options sharing s e p o m := by
  rw [h.debugMirrors_eq] at hlisted
  rcases h.passes.shows.mirrored hlisted with ⟨list, hget, -⟩ | ⟨e, he, hm⟩
  · cases (h.passes.get?_checked o).symm.trans hget
  · exact ⟨e, h.exists_mirroredAs he hm⟩

/-- A watched expression has its mirror listed under its operand. -/
theorem exists_listed (he : t.Lowers e) (hvar : t.WatchedVar options e p) :
    ∃ o m, t.MirroredAs options sharing s e p o m ∧ Listed q.debugMirrors o m := by
  have hvisited := (h.passes.visited_iff h.prepared_failed).2 he
  obtain ⟨-, hdone⟩ := (h.passes.shows.met e hvisited).resolve_left List.not_mem_nil
  have hshown := hdone.resolve_left (by simp [h.prepared_failed])
  obtain ⟨o, m, hm, hlisted⟩ := hshown p hvar
  obtain ⟨p', hmirrored⟩ := h.exists_mirroredAs he hm
  obtain rfl := hvar.unique hmirrored.toWatchedVar
  exact ⟨o, m, hmirrored, h.debugMirrors_eq ▸ hlisted⟩

theorem nodup_mirrors {list : List Operand} (hlist : q.debugMirrors.get? o = some list) : list.Nodup := by
  rw [h.debugMirrors_eq] at hlist
  refine h.passes.shows.nodup (fun o' list' hlist' => ?_) o list hlist
  cases (h.passes.get?_checked o').symm.trans hlist'

end Built

/-- A compiled program lists a mirror under an operand if and only if a lowered variable expression that is watched has
that operand, and the mirror is the register for the watch of its group of pins. Every watched expression has such a
mirror, those of one group have the same, and no mirror is listed twice under one operand. The lowered expressions
are those that setup came to. -/
theorem compile_mirrors (h : t.compile env options = .ok ⟨.ok q, report⟩) :
    ∃ s sharing checked prepared, t.lowered env options = .ok s ∧ q = s.program env.externals ∧
      Sharing.ofTree t = .ok sharing ∧ t.Passes env options sharing checked prepared s ∧
      (∀ e, e ∈ prepared.visited ↔ t.Lowers e) ∧
      (∀ o m, Listed q.debugMirrors o m ↔ ∃ e p, t.MirroredAs options sharing s e p o m) ∧
      (∀ o list, q.debugMirrors.get? o = some list → list.Nodup) ∧
      (∀ e p, t.Lowers e → t.WatchedVar options e p → ∃ o m, t.MirroredAs options sharing s e p o m) ∧
      ∀ {e e' p p' o o' m m'}, p' ∈ sharing.group p → t.MirroredAs options sharing s e p o m →
        t.MirroredAs options sharing s e' p' o' m' → m' = m := by
  obtain ⟨sharing, checked, prepared, s, hbuilt⟩ := exists_built h
  have hsame {e e' : ExprId} {p p' : Proxy} {o o' m m' : Operand} (hgroup : p' ∈ sharing.group p)
      (hm : t.MirroredAs options sharing s e p o m) (hm' : t.MirroredAs options sharing s e' p' o' m') : m' = m :=
    hm.mirror_eq hbuilt.partitions hgroup hm'
  refine ⟨s, sharing, checked, prepared, hbuilt.lowered, hbuilt.program, hbuilt.ofTree, hbuilt.passes,
    fun e => hbuilt.passes.visited_iff hbuilt.prepared_failed, fun o m => ⟨hbuilt.mirroredAs_of_listed, ?_⟩,
    fun o list hlist => hbuilt.nodup_mirrors hlist, fun e p he hvar => ?_, hsame⟩
  · rintro ⟨e, p, hm⟩
    obtain ⟨o', m', hm', hlisted⟩ := hbuilt.exists_listed hm.lowered hm.toWatchedVar
    obtain rfl := hsame (hbuilt.partitions.self p) hm hm'
    obtain rfl : o' = o := Option.some.inj (hm'.operand.symm.trans hm.operand)
    exact hlisted
  · obtain ⟨o, m, hm, -⟩ := hbuilt.exists_listed he hvar
    exact ⟨o, m, hm⟩

theorem lowered_forkTree_mirrors : ∃ s,
    forkTree.lowered forkEnv { watchedPins := ["Make.Value", "Left.Value"] } = .ok s ∧
    s.mirrors.toList = [(⟨.work, 2, none⟩, [⟨.debug, 0, none⟩])] ∧ s.report.errors = 0 := by
  rw [Tree.lowered_eq ofTree_forkTree]
  exact Checked.exists_ok_of_any (by decide +kernel)

/-- Two watched pins that share a register have one mirror. -/
theorem compile_mirrors_forkTree : ∃ q report,
    forkTree.compile forkEnv { watchedPins := ["Make.Value", "Left.Value"] } = .ok ⟨.ok q, report⟩ ∧
      q.debugMirrors.toList = [(⟨.work, 2, none⟩, [⟨.debug, 0, none⟩])] ∧
      ∃ s sharing e p, forkTree.MirroredAs { watchedPins := ["Make.Value", "Left.Value"] } sharing s e p
        ⟨.work, 2, none⟩ ⟨.debug, 0, none⟩ := by
  obtain ⟨s, hs, hmirrors, herrors⟩ := lowered_forkTree_mirrors
  obtain ⟨report, h⟩ := exists_compile_of_lowered issues_forkTree hs herrors
  obtain ⟨s', sharing, -, -, -, -, -, -, -, hlisted, -⟩ := compile_mirrors h
  have hget : s.mirrors.get? ⟨.work, 2, none⟩ = some [⟨.debug, 0, none⟩] := by
    rw [SortedMap.get?, hmirrors]
    rfl
  exact ⟨_, report, h, hmirrors, s', sharing, (hlisted _ _).1 ⟨_, hget, List.mem_singleton_self _⟩⟩

end NodeGraph.Tree
