import NodeGraph.Proofs.Graph.Names
import NodeGraph.Proofs.Lowering.Growth
import NodeGraph.Proofs.Lowering.Operands
import NodeGraph.Proofs.Text
import NodeGraph.Proofs.Tree.Valid

/-!
# Telling keys apart

The key of a register says what the register is for. The labels of cases and the outcome of comparisons
have keys that nothing else has, whatever names there are (`Makes.of_reserved`). The keys made from the
path of a pin are told from all others if names contain no separators, and then the key says in which
memory space the register is (`Makes.space_eq`).
-/
namespace NodeGraph

namespace Lowering

variable {types : TypeRegistry} {t : Tree} {g : Graph} {sharing : Sharing} {space space' : MemorySpace}
  {key path suffix name : String} {build : Typed Register} {p : Proxy} {callSite : CallStack}

/-! ## Reserved keys -/

/-- A key that is neither a path nor begins as those of parameters, locals and their defaults do. -/
structure Reserved (key : String) : Prop where
  dot : '.' ∉ key.toList
  bar : '|' ∉ key.toList
  first : ∀ c ∈ key.toList.head?, c ≠ 'P' ∧ c ≠ 'L' ∧ c ≠ 'F'

theorem toList_labelKey (n : Nat) :
    (s!"Const::int32::{n}").toList = "Const::int32::".toList ++ (toString n).toList := by
  rw [String.toList_append]
  rfl

theorem reserved_label (n : Nat) : Reserved s!"Const::int32::{n}" := by
  have hmem {c : Char} (hlit : c ∉ "Const::int32::".toList) (hdigit : c.isDigit = false) :
      c ∉ (s!"Const::int32::{n}").toList := by
    rw [toList_labelKey, List.mem_append]
    rintro (hc | hc)
    · exact hlit hc
    · rw [Text.isDigit_of_mem_toString hc] at hdigit
      cases hdigit
  refine ⟨hmem (by decide) (by decide), hmem (by decide) (by decide), ?_⟩
  rw [toList_labelKey]
  simp

theorem reserved_scratch : Reserved "Scratch::Compare" := ⟨by decide, by decide, by simp⟩

theorem localKey_eq (h : localKey g callSite name = .ok key) :
    ∃ sites, CallStack.pathPrefix g callSite = .ok sites ∧ key = sites ++ "Local::" ++ name := by
  obtain ⟨sites, hsites, h⟩ := Checked.bind_eq_ok.1 h
  cases h
  exact ⟨sites, hsites, rfl⟩

theorem not_reserved_path (hp : p.pin?.isSome = true) (hpath : p.path g = .ok path) (suffix : String) :
    ¬ Reserved (path ++ suffix) := by
  intro h
  refine h.dot ?_
  rw [String.toList_append, List.mem_append]
  exact .inl (Proxy.dot_mem_path hp hpath)

theorem not_reserved_parameter (name : String) : ¬ Reserved ("Parameter::" ++ name) := fun h =>
  absurd rfl (h.first 'P' (by simp)).1

theorem not_reserved_local (hkey : localKey g callSite name = .ok key) : ¬ Reserved key := by
  intro h
  obtain ⟨sites, hsites, rfl⟩ := localKey_eq hkey
  rcases CallStack.eq_nil_or_mem_pathPrefix hsites with rfl | hbar
  · exact absurd rfl (h.first 'L' (by simp)).2.1
  · exact h.bar (by simp [hbar])

/-- Only a label or the outcome of comparisons has a reserved key. -/
theorem Makes.of_reserved (h : Makes types t sharing space key build) (hsharing : sharing.ExistsIn t.graph)
    (hkey : Reserved key) :
    (∃ n : Nat, key = s!"Const::int32::{n}" ∧ space = .literal ∧
      build = types.buildRegister key { typeName := "int32", defaultText := toString n }) ∨
    key = "Scratch::Compare" ∧ space = .work := by
  cases h with
  | value spec hp hnone hpath =>
    have hp := Sharing.isSome_pin?_representative hsharing hp.isSome
    exact absurd (by simpa using hkey) (not_reserved_path hp hpath "")
  | constant spec hp hpath => exact absurd hkey (not_reserved_path hp hpath _)
  | watch typeName hp hpath =>
    exact absurd hkey (not_reserved_path (Sharing.isSome_pin?_representative hsharing hp) hpath _)
  | parameter name => exact absurd hkey (not_reserved_parameter name)
  | localVariable hv hlocal => exact absurd hkey (not_reserved_local hlocal)
  | localDefault hv => exact absurd rfl (hkey.first 'F' (by simp [localDefaultKey])).2.2
  | label n => exact .inl ⟨n, rfl, rfl, rfl⟩
  | scratch => exact .inr ⟨rfl, rfl⟩

/-! ## Keys made from paths -/

/-- What follows the path of a pin in the keys of a memory space. -/
def suffixes : MemorySpace → List String
  | .work => [""]
  | .literal => ["::IO", "::Const"]
  | .debug => ["::Debug"]
  | .external => []

/-- Without separators in names, a key is made from the path of a pin, or there is no dot in front of its
first colon. -/
theorem Makes.path_or_stem (h : Makes types t sharing space key build) (hg : t.graph.BareNames)
    (hsharing : sharing.ExistsIn t.graph) :
    (∃ (p : Proxy) (path suffix : String), p.pin?.isSome = true ∧ p.path t.graph = .ok path ∧
      suffix ∈ suffixes space ∧ key = path ++ suffix) ∨
    ∃ stem rest, key.toList = stem ++ ':' :: rest ∧ ':' ∉ stem ∧ '.' ∉ stem := by
  cases h with
  | value spec hp hnone hpath =>
    have hp := Sharing.isSome_pin?_representative hsharing hp.isSome
    exact .inl ⟨_, _, "", hp, hpath, by simp [suffixes], by simp⟩
  | constant spec hp hpath hsuffix =>
    exact .inl ⟨_, _, _, hp, hpath, by simpa [suffixes] using hsuffix, rfl⟩
  | watch typeName hp hpath =>
    have hp := Sharing.isSome_pin?_representative hsharing hp
    exact .inl ⟨_, _, "::Debug", hp, hpath, by simp [suffixes], rfl⟩
  | parameter name spec => exact .inr ⟨"Parameter".toList, ':' :: name.toList, by simp, by decide, by decide⟩
  | @localVariable callSite function v key hv hlocal =>
    obtain ⟨sites, hsites, rfl⟩ := localKey_eq hlocal
    have hplain := CallStack.plain_pathPrefix hg hsites
    refine .inr ⟨sites.toList ++ "Local".toList, ':' :: v.name.toList, by simp, ?_, ?_⟩
    · exact fun hc => (List.mem_append.1 hc).elim (fun hc => (hplain _ hc).2 rfl) (by decide)
    · exact fun hc => (List.mem_append.1 hc).elim (fun hc => (hplain _ hc).1 rfl) (by decide)
  | @localDefault callSite function v hv =>
    refine .inr ⟨"Function".toList, ':' :: (function.name ++ "::Local::" ++ v.name ++ "::Const").toList, ?_,
      by decide, by decide⟩
    simp [localDefaultKey]
  | label n =>
    refine .inr ⟨"Const".toList, ":int32::".toList ++ (toString n).toList, ?_, by decide, by decide⟩
    rw [toList_labelKey]
    rfl
  | scratch => exact .inr ⟨"Scratch".toList, ":Compare".toList, rfl, by decide, by decide⟩

/-- Only a register for the value of a pin has a path for a key. It is made in the shape of the least pin of the
group. -/
theorem Makes.of_colon_notMem (h : Makes types t sharing space key build) (hkey : ':' ∉ key.toList) :
    ∃ p : Proxy, p.IsRoot t.graph ∧ (sharing.group p).findM? (m := Checked) (isVariablePin t.graph) = .ok none ∧
      (sharing.representative p).path t.graph = .ok key ∧ ∃ frames spec,
        pinSpec t.graph frames (sharing.representative p) = .ok spec ∧ build = types.buildRegister key spec := by
  cases h with
  | value spec hp hnone hpath hspec => exact ⟨_, hp, hnone, hpath, _, spec, hspec, rfl⟩
  | constant spec hp hpath hsuffix => rcases hsuffix with rfl | rfl <;> simp at hkey
  | watch typeName hp hpath => simp at hkey
  | parameter name spec => simp at hkey
  | localVariable hv hlocal =>
    obtain ⟨sites, -, rfl⟩ := localKey_eq hlocal
    simp at hkey
  | localDefault hv => simp [localDefaultKey] at hkey
  | label n =>
    rw [toList_labelKey] at hkey
    simp at hkey
  | scratch => exact absurd hkey (by decide)

/-- A suffix is empty or begins with a colon. -/
theorem suffix_cases (h : suffix ∈ suffixes space) : suffix = "" ∨ ∃ rest, suffix.toList = ':' :: rest := by
  cases space with
  | work => exact .inl (by simpa [suffixes] using h)
  | literal =>
    have h : suffix = "::IO" ∨ suffix = "::Const" := by simpa [suffixes] using h
    rcases h with rfl | rfl <;> exact .inr ⟨_, rfl⟩
  | debug =>
    obtain rfl : suffix = "::Debug" := by simpa [suffixes] using h
    exact .inr ⟨_, rfl⟩
  | external => cases h

/-- A path can be told from the suffix behind it. -/
theorem path_append_injective {path' suffix' : String} (hpath : ':' ∉ path.toList) (hpath' : ':' ∉ path'.toList)
    (hsuffix : suffix ∈ suffixes space) (hsuffix' : suffix' ∈ suffixes space')
    (heq : path ++ suffix = path' ++ suffix') : path = path' ∧ suffix = suffix' := by
  have hchars : path.toList ++ suffix.toList = path'.toList ++ suffix'.toList := by
    simpa using congrArg String.toList heq
  rcases suffix_cases hsuffix with rfl | ⟨rest, hrest⟩
  · rcases suffix_cases hsuffix' with rfl | ⟨rest', hrest'⟩
    · exact ⟨by simpa using heq, rfl⟩
    · rw [hrest'] at hchars
      exact absurd (by simp [show path.toList = _ by simpa using hchars]) hpath
  · rcases suffix_cases hsuffix' with rfl | ⟨rest', hrest'⟩
    · rw [hrest] at hchars
      exact absurd (by simp [show path'.toList = _ by simpa using hchars.symm]) hpath'
    · rw [hrest, hrest'] at hchars
      obtain ⟨hpaths, hrests⟩ := eq_of_append_cons_eq hpath hpath' hchars
      refine ⟨String.toList_inj.1 hpaths, String.toList_inj.1 ?_⟩
      rw [hrest, hrest', hrests]

theorem space_eq_of_suffix (h : suffix ∈ suffixes space) (h' : suffix ∈ suffixes space') : space = space' := by
  cases space <;> cases space' <;>
    simp only [suffixes, List.mem_cons, List.not_mem_nil, or_false, reduceCtorEq] at h h' ⊢ <;> grind

/-- The suffix behind the path of a pin says in which memory space the register is. -/
theorem Makes.space_eq (h : Makes types t sharing space (path ++ suffix) build) (hg : t.graph.BareNames)
    (hsharing : sharing.ExistsIn t.graph) (hp : p.pin?.isSome = true) (hpath : p.path t.graph = .ok path)
    (hsuffix : suffix ∈ suffixes space') : space = space' := by
  have hcolon := Proxy.colon_notMem_path hg hp hpath
  rcases h.path_or_stem hg hsharing with ⟨p', path', suffix', hp', hpath', hsuffix', heq⟩ |
    ⟨stem, rest, hkey, hstem, hdot⟩
  · have hcolon' := Proxy.colon_notMem_path hg hp' hpath'
    obtain ⟨-, rfl⟩ := path_append_injective hcolon hcolon' hsuffix hsuffix' heq
    exact space_eq_of_suffix hsuffix' hsuffix
  · rw [String.toList_append] at hkey
    have hmem := Proxy.dot_mem_path hp hpath
    rcases suffix_cases hsuffix with rfl | ⟨rest', hrest'⟩
    · exact absurd (by simp [show path.toList = _ by simpa using hkey]) hcolon
    · rw [hrest'] at hkey
      obtain ⟨hpaths, -⟩ := eq_of_append_cons_eq hcolon hstem hkey
      rw [hpaths] at hmem
      exact absurd hmem hdot

/-! ## Keys of locals -/

/-- What stands in front of the first colon of a key. -/
def stem (key : String) : List Char := key.toList.takeWhile (· ≠ ':')

theorem stem_eq (front rest : List Char) (h : key.toList = front ++ ':' :: rest) (hfront : ':' ∉ front) :
    stem key = front := by
  rw [stem, h, List.takeWhile_append_of_pos, List.takeWhile_cons_of_neg, List.append_nil]
  · simp
  · intro c hc
    simpa using ne_of_mem_of_not_mem hc hfront

theorem dot_mem_stem_path (hg : g.BareNames) (hp : p.pin?.isSome = true) (hpath : p.path g = .ok path)
    (suffix : String) : '.' ∈ stem (path ++ suffix) := by
  have hcolon := Proxy.colon_notMem_path hg hp hpath
  rw [stem, String.toList_append, List.takeWhile_append_of_pos]
  · exact List.mem_append_left _ (Proxy.dot_mem_path hp hpath)
  · intro c hc
    simpa using ne_of_mem_of_not_mem hc hcolon

theorem stem_localDefaultKey (function name : String) : stem (localDefaultKey function name) = "Function".toList :=
  stem_eq _ (':' :: (function ++ "::Local::" ++ name ++ "::Const").toList) (by simp [localDefaultKey]) (by decide)

section LocalKeys

variable {callSite callSite' : CallStack} {name name' function : String}

/-- The call site of a local can be read off its key. -/
theorem stem_localKey (hg : g.BareNames) (h : localKey g callSite name = .ok key) :
    ∃ sites, CallStack.pathPrefix g callSite = .ok sites ∧ stem key = sites.toList ++ "Local".toList := by
  obtain ⟨sites, hsites, rfl⟩ := localKey_eq h
  refine ⟨sites, hsites, stem_eq _ (':' :: name.toList) (by simp) ?_⟩
  intro hc
  rcases List.mem_append.1 hc with hc | hc
  · exact (CallStack.plain_pathPrefix hg hsites _ hc).2 rfl
  · revert hc
    decide

theorem dot_notMem_stem_localKey (hg : g.BareNames) (h : localKey g callSite name = .ok key) : '.' ∉ stem key := by
  obtain ⟨sites, hsites, hstem⟩ := stem_localKey hg h
  rw [hstem, List.mem_append]
  rintro (hc | hc)
  · exact (CallStack.plain_pathPrefix hg hsites _ hc).1 rfl
  · revert hc
    decide

/-- Only the keys of locals have a stem that ends as theirs do. -/
theorem stem_localKey_ne (hg : g.BareNames) (h : localKey g callSite name = .ok key) (other : List Char)
    (hother : ¬ "Local".toList <:+ other) : stem key ≠ other := by
  obtain ⟨sites, -, hstem⟩ := stem_localKey hg h
  rintro rfl
  exact hother ⟨sites.toList, hstem.symm⟩

theorem localKey_injective (hg : g.PlainNames) (h : localKey g callSite name = .ok key)
    (h' : localKey g callSite' name' = .ok key) : callSite = callSite' ∧ name = name' := by
  obtain ⟨sites, hsites, hstem⟩ := stem_localKey hg.bare h
  obtain ⟨sites', hsites', hstem'⟩ := stem_localKey hg.bare h'
  have hsame : sites = sites' := String.toList_inj.1 (List.append_cancel_right (hstem.symm.trans hstem'))
  subst hsame
  have hnil : '|' ∉ ("" : String).toList := by simp
  refine ⟨(CallStack.pathPrefix_injective hg hsites hsites' hnil hnil rfl).1, ?_⟩
  obtain ⟨front, hfront, rfl⟩ := localKey_eq h
  obtain ⟨front', hfront', heq⟩ := localKey_eq h'
  cases hfront.symm.trans hsites
  cases hfront'.symm.trans hsites'
  exact String.toList_inj.1 (by simpa using congrArg String.toList heq)

/-- What is made is told by the stem of its key, other than that locals differ in their names. -/
theorem Makes.stem_cases (h : Makes types t sharing space key build) (hg : t.graph.BareNames)
    (hsharing : sharing.ExistsIn t.graph) :
    '.' ∈ stem key ∨ stem key ∈ ["Const".toList, "Scratch".toList] ∨
    (∃ name p isInput frames spec, key = "Parameter::" ++ name ∧ p.IsOn t.graph (.parameter name isInput) ∧
      pinSpec t.graph frames p = .ok spec ∧ space = .work ∧ build = types.buildRegister key spec) ∨
    (∃ callSite function v, t.DeclaresAt callSite function v ∧ localKey t.graph callSite v.name = .ok key ∧
      space = .work ∧ build = types.buildRegister key (localSpec v)) ∨
    ∃ callSite function v, t.DeclaresAt callSite function v ∧ key = localDefaultKey function.name v.name ∧
      space = .literal ∧ build = types.buildRegister key (localSpec v) := by
  cases h with
  | value spec hp hnone hpath =>
    have hp := Sharing.isSome_pin?_representative hsharing hp.isSome
    exact .inl (by simpa using dot_mem_stem_path hg hp hpath "")
  | constant spec hp hpath hsuffix => exact .inl (dot_mem_stem_path hg hp hpath _)
  | watch typeName hp hpath =>
    exact .inl (dot_mem_stem_path hg (Sharing.isSome_pin?_representative hsharing hp) hpath _)
  | parameter name spec hkind hspec =>
    exact .inr (.inr (.inl ⟨name, _, _, _, spec, rfl, hkind, hspec, rfl, rfl⟩))
  | localVariable hv hkey => exact .inr (.inr (.inr (.inl ⟨_, _, _, hv, hkey, rfl, rfl⟩)))
  | localDefault hv => exact .inr (.inr (.inr (.inr ⟨_, _, _, hv, rfl, rfl, rfl⟩)))
  | label n =>
    refine .inr (.inl ?_)
    rw [stem_eq "Const".toList (":int32::".toList ++ (toString n).toList) (by rw [toList_labelKey]; rfl) (by decide)]
    simp
  | scratch =>
    refine .inr (.inl ?_)
    rw [stem_eq "Scratch".toList ":Compare".toList rfl (by decide)]
    simp

theorem stem_parameter (name : String) : stem ("Parameter::" ++ name) = "Parameter".toList :=
  stem_eq _ (':' :: name.toList) (by simp) (by decide)

/-- Without separators in names, only a register for a parameter has the key of one. -/
theorem Makes.of_parameterKey (h : Makes types t sharing space ("Parameter::" ++ name) build)
    (hg : t.graph.BareNames) (hsharing : sharing.ExistsIn t.graph) :
    space = .work ∧ ∃ p isInput frames spec, p.IsOn t.graph (.parameter name isInput) ∧
      pinSpec t.graph frames p = .ok spec ∧ build = types.buildRegister ("Parameter::" ++ name) spec := by
  rcases h.stem_cases hg hsharing with hdot | hstem | ⟨name', p, isInput, frames, spec, heq, hkind, hspec, rfl, rfl⟩ |
    ⟨site, function, v, -, hlocal, -, -⟩ | ⟨site, function, v, -, heq, -, -⟩
  · exact absurd hdot (by rw [stem_parameter]; decide)
  · exact absurd hstem (by rw [stem_parameter]; decide)
  · obtain rfl : name = name' := String.toList_inj.1 (by simpa using congrArg String.toList heq)
    exact ⟨rfl, p, isInput, frames, spec, hkind, hspec, rfl⟩
  · exact absurd (stem_parameter name) (stem_localKey_ne hg hlocal _ (by decide))
  · have hstem := stem_parameter name
    rw [heq, stem_localDefaultKey] at hstem
    exact absurd hstem (by decide)

/-- Without separators in names, only a register for a local has the key of one. -/
theorem Makes.of_localKey (h : Makes types t sharing space key build) (hg : t.graph.PlainNames)
    (hsharing : sharing.ExistsIn t.graph) (hkey : localKey t.graph callSite name = .ok key) :
    space = .work ∧ ∃ function v, t.DeclaresAt callSite function v ∧ v.name = name ∧
      build = types.buildRegister key (localSpec v) := by
  rcases h.stem_cases hg.bare hsharing with hdot | hstem | ⟨parameter, -, -, -, -, rfl, -, -, -, -⟩ |
    ⟨site, function, v, hv, hlocal, rfl, rfl⟩ | ⟨site, function, v, -, rfl, -, -⟩
  · exact absurd hdot (dot_notMem_stem_localKey hg.bare hkey)
  · simp only [List.mem_cons, List.not_mem_nil, or_false] at hstem
    rcases hstem with hstem | hstem
    all_goals exact absurd hstem (stem_localKey_ne hg.bare hkey _ (by decide))
  · exact absurd (stem_parameter parameter) (stem_localKey_ne hg.bare hkey _ (by decide))
  · obtain ⟨rfl, rfl⟩ := localKey_injective hg hlocal hkey
    exact ⟨rfl, function, v, hv, rfl, rfl⟩
  · exact absurd (stem_localDefaultKey _ _) (stem_localKey_ne hg.bare hkey _ (by decide))

theorem localDefaultKey_injective {function' : String} (h : ':' ∉ function.toList) (h' : ':' ∉ function'.toList)
    (heq : localDefaultKey function name = localDefaultKey function' name') : function = function' ∧ name = name' := by
  have hchars : function.toList ++ ':' :: (":Local::".toList ++ (name.toList ++ "::Const".toList)) =
      function'.toList ++ ':' :: (":Local::".toList ++ (name'.toList ++ "::Const".toList)) := by
    simpa [localDefaultKey] using congrArg String.toList heq
  obtain ⟨hfunction, hrest⟩ := eq_of_append_cons_eq h h' hchars
  have hname := List.append_cancel_right (List.append_cancel_left hrest)
  exact ⟨String.toList_inj.1 hfunction, String.toList_inj.1 hname⟩

/-- Without separators in names, only a register for the default of a pin has the key of one. -/
theorem Makes.of_constantKey (h : Makes types t sharing space (path ++ suffix) build) (hg : t.graph.BareNames)
    (hsharing : sharing.ExistsIn t.graph) (hp : p.pin?.isSome = true) (hpath : p.path t.graph = .ok path)
    (hsuffix : suffix ∈ suffixes .literal) :
    ∃ q frames spec, q.pin?.isSome = true ∧ q.path t.graph = .ok path ∧ pinSpec t.graph frames q = .ok spec ∧
      build = types.buildRegister (path ++ suffix) spec := by
  have hspace := h.space_eq hg hsharing hp hpath hsuffix
  have hdot := dot_mem_stem_path hg hp hpath suffix
  generalize hkey : path ++ suffix = key at h hdot
  cases h with
  | @constant q path' suffix' spec hq hpath' hsuffix' frames hspec =>
    obtain ⟨rfl, rfl⟩ := path_append_injective (Proxy.colon_notMem_path hg hp hpath)
      (Proxy.colon_notMem_path hg hq hpath') hsuffix
      (by simpa [suffixes] using hsuffix' : suffix' ∈ suffixes .literal) hkey
    exact ⟨q, frames, spec, hq, hpath', hspec, rfl⟩
  | localDefault hv => exact absurd hdot (by rw [stem_localDefaultKey]; decide)
  | label n =>
    rw [stem_eq "Const".toList (":int32::".toList ++ (toString n).toList) (by rw [toList_labelKey]; rfl) (by decide)]
      at hdot
    exact absurd hdot (by decide)
  | value => cases hspace
  | watch => cases hspace
  | parameter => cases hspace
  | localVariable => cases hspace
  | scratch => cases hspace

/-- Without separators in names, only a register for the default of a local has the key of one. -/
theorem Makes.of_localDefaultKey (h : Makes types t sharing space (localDefaultKey function name) build)
    (hg : t.graph.BareNames) (hsharing : sharing.ExistsIn t.graph) :
    space = .literal ∧ ∃ callSite f v, t.DeclaresAt callSite f v ∧
      localDefaultKey f.name v.name = localDefaultKey function name ∧
      build = types.buildRegister (localDefaultKey function name) (localSpec v) := by
  rcases h.stem_cases hg hsharing with hdot | hstem | ⟨parameter, -, -, -, -, heq, -, -, -, -⟩ |
    ⟨site, f, v, -, hlocal, -, -⟩ | ⟨site, f, v, hv, hkey, rfl, rfl⟩
  · exact absurd hdot (by rw [stem_localDefaultKey]; decide)
  · exact absurd hstem (by rw [stem_localDefaultKey]; decide)
  · have hstem := stem_localDefaultKey function name
    rw [heq, stem_parameter] at hstem
    exact absurd hstem (by decide)
  · exact absurd (stem_localDefaultKey _ _) (stem_localKey_ne hg hlocal _ (by decide))
  · exact ⟨rfl, site, f, v, hv, hkey.symm, rfl⟩

end LocalKeys

/-! ## Root pins -/

section Sites

variable {cx : Context} {site : Site}

/-- The register of a variable is that of a parameter or of a local. -/
theorem Context.variableSite_register (h : cx.variableSite p = .ok (some (.register key))) :
    (∃ name, key = "Parameter::" ++ name) ∨
      ∃ callSite name, localKey cx.tree.graph callSite name = .ok key := by
  unfold Context.variableSite at h
  dsimp only at h
  split at h
  · cases h
  · obtain ⟨pin, -, h⟩ := Checked.bind_eq_ok.1 h
    obtain ⟨node, -, h⟩ := Checked.bind_eq_ok.1 h
    split at h
    · next name _ _ =>
      cases h
      exact .inl ⟨name, rfl⟩
    · obtain ⟨access, -, h⟩ := Checked.bind_eq_ok.1 h
      split at h
      · obtain ⟨key', hkey, h⟩ := Checked.bind_eq_ok.1 h
        cases h
        exact .inr ⟨_, _, hkey⟩
      · have h := Except.ok.inj h
        obtain ⟨index, -, h⟩ := Option.map_eq_some_iff.1 h
        cases h
    · cases h

theorem Context.variableSite_not_reserved (h : cx.variableSite p = .ok (some (.register key))) :
    ¬ Reserved key := by
  rcases Context.variableSite_register h with ⟨name, rfl⟩ | ⟨callSite, name, hkey⟩
  · exact not_reserved_parameter name
  · exact not_reserved_local hkey

theorem Context.rootSite_not_reserved (hsharing : cx.sharing.ExistsIn cx.tree.graph)
    (hp : p.pin?.isSome = true) (h : cx.rootSite p = .ok (some (.register key))) : ¬ Reserved key := by
  rcases Context.rootSite_cases h with ⟨member, -, h⟩ | ⟨-, path, hpath, hkey⟩
  · exact Context.variableSite_not_reserved h
  · cases hkey
    have hp := Sharing.isSome_pin?_representative hsharing hp
    simpa using not_reserved_path hp hpath ""

theorem Context.constantSite_not_reserved (h : cx.constantSite p = .ok (some (.register key))) :
    ¬ Reserved key := by
  obtain ⟨path, suffix, hp, hpath, -, hkey⟩ := Context.constantSite_cases h
  cases hkey
  exact not_reserved_path hp hpath suffix

theorem Context.externalSite_not_register (h : cx.externalSite p = .ok (some (.register key))) : False := by
  unfold Context.externalSite at h
  split at h
  · cases h
  · obtain ⟨pin, -, h⟩ := Checked.bind_eq_ok.1 h
    split at h
    · obtain ⟨name, -, h⟩ := Checked.bind_eq_ok.1 h
      have h := Except.ok.inj h
      obtain ⟨index, -, h⟩ := Option.map_eq_some_iff.1 h
      cases h
    · cases h

/-- The value of a root pin is a whole register or external variable. -/
theorem Context.KeptAt.exists_site {s : Storage} {kind : ExprKind} {id : PinId} {pin : Pin} {o : Operand}
    (h : cx.KeptAt s kind p o) (hkind : kind.isValue = true) (hsharing : cx.sharing.ExistsIn cx.tree.graph)
    (hid : p.pin? = some id) (hpin : cx.tree.graph.pin id = .ok pin) (hroot : pin.isRoot = true) :
    ∃ site : Site, site.Holds s o ∧ ∀ key, site = .register key → ¬ Reserved key := by
  cases kind with
  | var =>
    obtain ⟨id', root, segments, hid', hrootPin, hsegments, site, base, hsite, hbase, ho⟩ := h
    cases hid.symm.trans hid'
    obtain ⟨hrootPin', hsegments'⟩ := Graph.rootPin_of_isRoot hpin hroot
    cases hrootPin.symm.trans hrootPin'
    cases hsegments.symm.trans hsegments'
    rw [if_pos rfl] at ho
    subst ho
    refine ⟨site, hbase, ?_⟩
    rintro key rfl
    rw [Proxy.withPin_self hid] at hsite
    exact Context.rootSite_not_reserved hsharing (by simp [hid]) hsite
  | literal =>
    obtain ⟨site, hsite, ho⟩ := h
    refine ⟨site, ho, ?_⟩
    rintro key rfl
    exact Context.constantSite_not_reserved hsite
  | externalVar =>
    obtain ⟨site, hsite, ho⟩ := h
    refine ⟨site, ho, ?_⟩
    rintro key rfl
    exact (Context.externalSite_not_register hsite).elim
  | _ => cases hkind

end Sites

end Lowering

namespace Tree

open Lowering

variable {t : Tree} {env : Environment} {options : CompileOptions} {sharing : Sharing} {s : State}
  {e : ExprId} {name : String} {o : Operand}

/-- The child found for a pin is a value of a root pin. -/
theorem exists_of_varForPin {var : ExprId} (h : t.varForPin e name = .ok (some var)) :
    ∃ x id pin, t.expr? var = some x ∧ x.kind.isValue = true ∧ x.pin? = some id ∧
      t.graph.pin id = .ok pin ∧ pin.isRoot = true := by
  obtain ⟨children, -, h⟩ := Checked.bind_eq_ok.1 h
  obtain ⟨-, hvar⟩ := Checked.mem_of_findM? h
  obtain ⟨x, hx, hvar⟩ := Checked.bind_eq_ok.1 hvar
  have hvar := Except.ok.inj hvar
  rw [Bool.and_eq_true] at hvar
  obtain ⟨pin, hpin, hroot⟩ := (Option.any_eq_true _ _).1 hvar.2
  obtain ⟨id, hid, hpin⟩ := Option.bind_eq_some_iff.1 hpin
  rw [Bool.and_eq_true] at hroot
  exact ⟨x, id, pin, Checked.get_eq_ok.1 hx, hvar.1, hid, Graph.pin_eq_ok.2 hpin, hroot.1⟩

/-- The value of a root pin is a whole register or external variable, and none with a reserved key. -/
theorem PinOperand.whole (h : t.PinOperand s e name o) (hs : t.loweredWith env options sharing = .ok s)
    (hsharing : sharing.ExistsIn t.graph) :
    o.propertyPath = none ∧ ∀ {key o'}, Reserved key → s.storage.Named key o' →
      ¬ (o.memory = o'.memory ∧ o.index = o'.index) := by
  obtain ⟨var, hvar, ho⟩ := h
  obtain ⟨x, id, pin, hx, hvalue, hid, hpin, hroot⟩ := exists_of_varForPin hvar
  obtain ⟨p, hp, hkept⟩ := placed_of_lowered hs (var, o) (mem_of_lookup ho) x hx hvalue
  have hid : p.pin? = some id := by simpa [Expression.pin?, hp] using hid
  obtain ⟨site, hholds, hsite⟩ := hkept.exists_site hvalue hsharing hid hpin hroot
  cases site with
  | external index =>
    obtain rfl : o = { memory := .external, index } := hholds
    refine ⟨rfl, fun {key o'} _ hnamed heq => ?_⟩
    obtain ⟨-, table, r, ht, -⟩ := hnamed
    rw [← heq.1] at ht
    cases ht
  | register key =>
    have hnamed := named_of_lowered hs hholds
    refine ⟨hnamed.1, fun {key' o'} hkey hnamed' heq => hsite key rfl ?_⟩
    rw [hnamed.key_eq hnamed' heq.1 heq.2]
    exact hkey

end Tree
end NodeGraph
