import NodeGraph.Document.Json
import NodeGraph.Proofs.Json.Printing

/-!
# Documents survive as text

A document is read back from its text (`Document.ofText?_toText`). This asks only that ids have 32 bits, and
these occur in the tree alone. Every kind of part has a writer and a reader that are tied together by `Carries`:
what is written is plain, and the reader gives it back. Lists, optional values, choices and records of parts
that are carried are carried.
-/
namespace NodeGraph

/-! ## Shapes -/

namespace Json

variable {α β : Type} {P : α → Prop} {write : α → Json} {read : Json → Option α} {a : α} {members r : Record}
  {name : String}

/-- Values with a property are written plainly and read back. -/
structure Carries (P : α → Prop) (write : α → Json) (read : Json → Option α) : Prop where
  plain {a : α} : P a → (write a).Plain
  reads {a : α} : P a → read (write a) = some a

theorem carries_word : Carries (· < wordLimit) natural word? where
  plain _ := .natural _
  reads h := if_pos h

theorem carries_string : Carries (fun _ => True) string string? where
  plain _ := .string _
  reads _ := rfl

theorem carries_bool : Carries (fun _ => True) bool bool? where
  plain _ := .bool _
  reads _ := rfl

theorem Carries.list (h : Carries P write read) : Carries (fun l => ∀ a ∈ l, P a) (ofList write) (list? read) where
  plain {l} hl := .array fun v hv => by
    obtain ⟨a, ha, rfl⟩ := List.mem_map.1 hv
    exact h.plain (hl a ha)
  reads {l} hl := by
    show (l.map write).mapM read = some l
    induction l with
    | nil => rfl
    | cons a l ih =>
      rw [List.map_cons, List.mapM_cons, h.reads (hl a (by simp)), ih fun a' ha => hl a' (by simp [ha])]
      rfl

/-- What is never written as `null` may be absent. -/
theorem Carries.option (h : Carries P write read) (hnull : ∀ a, write a ≠ null) :
    Carries (fun o => ∀ a ∈ o, P a) (ofOption write) (nullable? read) where
  plain {o} ho := by
    cases o with
    | none => exact .null
    | some a => exact h.plain (ho a rfl)
  reads {o} ho := by
    cases o with
    | none => rfl
    | some a =>
      have hread : nullable? read (write a) = (read (write a)).map some := by
        unfold nullable?
        split
        · next heq => exact absurd heq (hnull a)
        · rfl
      show nullable? read (write a) = some (some a)
      rw [hread, h.reads (ho a rfl)]
      rfl

/-- Names that are told apart are read back. -/
theorem carries_choice {all : List α} {name : α → String} (h : ∀ a, all.find? (name · = name a) = some a) :
    Carries (fun _ => True) (fun a => string (name a)) (choice? all name) where
  plain _ := .string _
  reads {a} _ := h a

/-! ### Records -/

@[simp] theorem plain_natural (n : Nat) : (natural n).Plain := .natural n

@[simp] theorem plain_string (text : String) : (string text).Plain := .string text

@[simp] theorem plain_bool (b : Bool) : (bool b).Plain := .bool b

@[simp] theorem plain_object : (object members).Plain ↔ ∀ m ∈ members, m.2.Plain :=
  ⟨fun h => by cases h; assumption, .object⟩

/-- An object whose keys are different is a record. -/
theorem record?_object {fields : List String} {least : Nat} (h : (members.map (·.1)).Nodup) :
    record? fields least (object members) = some members := by
  have honce : ∀ f ∈ fields, members.countP (·.1 = f) ≤ 1 := fun f _ => by
    have hcount := List.nodup_iff_count.1 h f
    rwa [List.count_eq_countP, List.countP_map] at hcount
  rw [record?, if_pos (by simpa using honce)]

@[simp] theorem field?_cons (key name : String) (v : Json) (r : Record) :
    Record.field? ((key, v) :: r) name = if key = name then some v else Record.field? r name := by
  unfold Record.field?
  by_cases h : key = name <;> simp [h]

theorem Carries.required (h : Carries P write read) (ha : P a) (hfield : r.field? name = some (write a)) :
    r.required name read = some a := by
  rw [Record.required, hfield]
  exact h.reads ha

theorem Carries.optional (h : Carries P write read) (ha : P a) {default : α}
    (hfield : r.field? name = some (write a)) : r.optional name read default = some a := by
  rw [Record.optional, hfield]
  exact h.reads ha

end Json

/-! ## Ids -/

/-- The ids of a pin have 32 bits. -/
def Pin.InRange (p : Pin) : Prop :=
  p.node < wordLimit ∧ (∀ parent ∈ p.parent, parent < wordLimit) ∧ ∀ sub ∈ p.subPins, sub < wordLimit

/-- The numbers of a node have 32 bits. -/
def Node.InRange (n : Node) : Prop :=
  (∀ p ∈ n.pins, p < wordLimit) ∧ ∀ arity ∈ n.declaredArity, arity < wordLimit

def Graph.InRange (g : Graph) : Prop := (∀ n ∈ g.nodes, n.InRange) ∧ ∀ p ∈ g.pins, p.InRange

def GraphRef.InRange : GraphRef → Prop
  | node id | pin id => id < wordLimit

def Proxy.InRange (p : Proxy) : Prop := (∀ site ∈ p.callStack, site < wordLimit) ∧ p.target.InRange

def ProxyLink.InRange (l : ProxyLink) : Prop := l.source.InRange ∧ l.target.InRange

def Expression.InRange (x : Expression) : Prop :=
  (∀ e ∈ x.parents, e < wordLimit) ∧ (∀ e ∈ x.children, e < wordLimit) ∧
    (∀ p ∈ x.proxy, p.InRange) ∧ ∀ p ∈ x.source, p.InRange

/-- All ids in a tree have 32 bits. -/
def Tree.InRange (t : Tree) : Prop :=
  t.graph.InRange ∧ (∀ x ∈ t.exprs, x.InRange) ∧ (∀ r ∈ t.roots, r < wordLimit) ∧ ∀ l ∈ t.links, l.InRange

instance : DecidablePred Pin.InRange := fun _ => inferInstanceAs (Decidable (_ ∧ _))

instance : DecidablePred Node.InRange := fun _ => inferInstanceAs (Decidable (_ ∧ _))

instance : DecidablePred Graph.InRange := fun _ => inferInstanceAs (Decidable (_ ∧ _))

instance : DecidablePred GraphRef.InRange
  | .node _ | .pin _ => inferInstanceAs (Decidable (_ < _))

instance : DecidablePred Proxy.InRange := fun _ => inferInstanceAs (Decidable (_ ∧ _))

instance : DecidablePred ProxyLink.InRange := fun _ => inferInstanceAs (Decidable (_ ∧ _))

instance : DecidablePred Expression.InRange := fun _ => inferInstanceAs (Decidable (_ ∧ _))

instance : DecidablePred Tree.InRange := fun _ => inferInstanceAs (Decidable (_ ∧ _))

/-! ## Graphs -/

open Json

theorem carries_arrayOp : Carries (fun _ => True) ArrayOp.toJson ArrayOp.ofJson? :=
  carries_choice fun op => by cases op <;> rfl

theorem carries_pinDirection : Carries (fun _ => True) PinDirection.toJson PinDirection.ofJson? :=
  carries_choice fun d => by cases d <;> rfl

theorem carries_pin : Carries Pin.InRange Pin.toJson Pin.ofJson? where
  plain {p} h := by
    obtain ⟨-, hparent, hsub⟩ := h
    simp [Pin.toJson, carries_pinDirection.plain, (carries_word.option nofun).plain hparent,
      carries_word.list.plain hsub]
  reads {p} h := by
    obtain ⟨hnode, hparent, hsub⟩ := h
    rw [Pin.ofJson?, Pin.toJson, record?_object (by simp)]
    simp [carries_word.required hnode, carries_string.required, carries_pinDirection.required (a := p.direction),
      carries_bool.optional, carries_string.optional, (carries_word.option nofun).optional hparent,
      carries_word.list.optional hsub]

/-- A record with a text as its only field. -/
theorem textField?_eq (field text : String) :
    NodeKind.textField? field (.object [(field, .string text)]) = some text := by
  rw [NodeKind.textField?, record?_object (by simp)]
  simp [carries_string.required]

theorem flagged?_eq {flag : String} (hflag : flag ≠ "name") (text : String) (b : Bool) :
    NodeKind.flagged? flag (.object [("name", .string text), (flag, .bool b)]) = some (text, b) := by
  rw [NodeKind.flagged?, record?_object (by simpa using hflag.symm)]
  simp [carries_string.required, carries_bool.required, hflag.symm]

theorem carries_nodeKind : Carries (fun _ => True) NodeKind.toJson NodeKind.ofJson? where
  plain {kind} _ := by cases kind <;> simp [NodeKind.toJson, NodeKind.tagged, carries_arrayOp.plain]
  reads {kind} _ := by
    cases kind with
    | unit function => simp [NodeKind.toJson, NodeKind.tagged, NodeKind.ofJson?, variant?, textField?_eq]
    | forLoop function => simp [NodeKind.toJson, NodeKind.tagged, NodeKind.ofJson?, variant?, textField?_eq]
    | event name => simp [NodeKind.toJson, NodeKind.tagged, NodeKind.ofJson?, variant?, textField?_eq]
    | array op => simp [NodeKind.toJson, NodeKind.tagged, NodeKind.ofJson?, variant?, carries_arrayOp.reads]
    | variableAccess name isGetter =>
      simp [NodeKind.toJson, NodeKind.tagged, NodeKind.ofJson?, variant?, flagged?_eq]
    | parameter name isInput =>
      simp [NodeKind.toJson, NodeKind.tagged, NodeKind.ofJson?, variant?, flagged?_eq]
    | functionReference function =>
      simp [NodeKind.toJson, NodeKind.tagged, NodeKind.ofJson?, variant?, textField?_eq]
    | _ => rfl

theorem carries_node : Carries Node.InRange Node.toJson Node.ofJson? where
  plain {n} h := by
    simp [Node.toJson, carries_nodeKind.plain, carries_word.list.plain h.1, (carries_word.option nofun).plain h.2]
  reads {n} h := by
    rw [Node.ofJson?, Node.toJson, record?_object (by simp)]
    simp [carries_string.required, carries_nodeKind.required (a := n.kind), carries_word.list.required h.1,
      (carries_word.option nofun).optional h.2]

theorem carries_graph : Carries Graph.InRange Graph.toJson Graph.ofJson? where
  plain {g} h := by simp [Graph.toJson, carries_node.list.plain h.1, carries_pin.list.plain h.2]
  reads {g} h := by
    rw [Graph.ofJson?, Graph.toJson, record?_object (by simp)]
    simp [carries_node.list.required h.1, carries_pin.list.required h.2]

theorem carries_localVariable : Carries (fun _ => True) LocalVariable.toJson LocalVariable.ofJson? where
  plain _ := by simp [LocalVariable.toJson]
  reads {v} _ := by
    rw [LocalVariable.ofJson?, LocalVariable.toJson, record?_object (by simp)]
    simp [carries_string.required, carries_bool.optional, carries_string.optional]

theorem carries_functionDefinition :
    Carries (fun _ => True) FunctionDefinition.toJson FunctionDefinition.ofJson? where
  plain {f} _ := by simp [FunctionDefinition.toJson, carries_localVariable.list.plain (a := f.locals)]
  reads {f} _ := by
    rw [FunctionDefinition.ofJson?, FunctionDefinition.toJson, record?_object (by simp)]
    simp [carries_string.required, carries_localVariable.list.optional (a := f.locals)]

/-! ## Trees -/

theorem carries_graphRef : Carries GraphRef.InRange GraphRef.toJson GraphRef.ofJson? where
  plain {r} _ := by cases r <;> simp [GraphRef.toJson]
  reads {r} h := by
    cases r with
    | node id => simp [GraphRef.toJson, GraphRef.ofJson?, variant?, carries_word.reads h]
    | pin id => simp [GraphRef.toJson, GraphRef.ofJson?, variant?, carries_word.reads h]

theorem carries_proxy : Carries Proxy.InRange Proxy.toJson Proxy.ofJson? where
  plain {p} h := by simp [Proxy.toJson, carries_word.list.plain h.1, carries_graphRef.plain h.2]
  reads {p} h := by
    rw [Proxy.ofJson?, Proxy.toJson, record?_object (by simp)]
    simp [carries_word.list.required h.1, carries_graphRef.required h.2]

theorem carries_proxyLink : Carries ProxyLink.InRange ProxyLink.toJson ProxyLink.ofJson? where
  plain {l} h := by simp [ProxyLink.toJson, carries_proxy.plain h.1, carries_proxy.plain h.2]
  reads {l} h := by
    rw [ProxyLink.ofJson?, ProxyLink.toJson, record?_object (by simp)]
    simp [carries_proxy.required h.1, carries_proxy.required h.2]

theorem carries_exprKind : Carries (fun _ => True) ExprKind.toJson ExprKind.ofJson? :=
  carries_choice fun kind => by cases kind <;> rfl

theorem carries_expression : Carries Expression.InRange Expression.toJson Expression.ofJson? where
  plain {x} h := by
    obtain ⟨hparents, hchildren, hproxy, hsource⟩ := h
    simp [Expression.toJson, carries_exprKind.plain, carries_word.list.plain hparents,
      carries_word.list.plain hchildren, (carries_proxy.option nofun).plain hproxy,
      (carries_proxy.option nofun).plain hsource]
  reads {x} h := by
    obtain ⟨hparents, hchildren, hproxy, hsource⟩ := h
    rw [Expression.ofJson?, Expression.toJson, record?_object (by simp)]
    simp [carries_string.required, carries_exprKind.required (a := x.kind), carries_word.list.optional hparents,
      carries_word.list.optional hchildren, (carries_proxy.option nofun).optional hproxy,
      (carries_proxy.option nofun).optional hsource]

theorem carries_tree : Carries Tree.InRange Tree.toJson Tree.ofJson? where
  plain {t} h := by
    obtain ⟨hgraph, hexprs, hroots, hlinks⟩ := h
    simp [Tree.toJson, carries_graph.plain hgraph, carries_functionDefinition.list.plain (a := t.functions),
      carries_expression.list.plain hexprs, carries_word.list.plain hroots, carries_proxyLink.list.plain hlinks]
  reads {t} h := by
    obtain ⟨hgraph, hexprs, hroots, hlinks⟩ := h
    rw [Tree.ofJson?, Tree.toJson, record?_object (by simp)]
    simp [carries_graph.required hgraph, carries_functionDefinition.list.optional (a := t.functions),
      carries_expression.list.required hexprs, carries_word.list.required hroots,
      carries_proxyLink.list.optional hlinks]

/-! ## Environments -/

theorem carries_parameterDirection :
    Carries (fun _ => True) ParameterDirection.toJson ParameterDirection.ofJson? :=
  carries_choice fun d => by cases d <;> rfl

theorem carries_parameter : Carries (fun _ => True) Parameter.toJson Parameter.ofJson? where
  plain _ := by simp [Parameter.toJson, carries_parameterDirection.plain]
  reads {p} _ := by
    rw [Parameter.ofJson?, Parameter.toJson, record?_object (by simp)]
    simp [carries_string.required, carries_parameterDirection.required (a := p.direction)]

theorem carries_functionSignature :
    Carries (fun _ => True) FunctionSignature.toJson FunctionSignature.ofJson? where
  plain {f} _ := by simp [FunctionSignature.toJson, carries_parameter.list.plain (a := f.parameters)]
  reads {f} _ := by
    rw [FunctionSignature.ofJson?, FunctionSignature.toJson, record?_object (by simp)]
    simp [carries_string.required, carries_parameter.list.required (a := f.parameters)]

theorem carries_structField : Carries (fun _ => True) StructField.toJson StructField.ofJson? where
  plain _ := by simp [StructField.toJson]
  reads {f} _ := by
    rw [StructField.ofJson?, StructField.toJson, record?_object (by simp)]
    simp [carries_string.required]

theorem carries_typeKind : Carries (fun _ => True) TypeKind.toJson TypeKind.ofJson? where
  plain {kind} _ := by
    cases kind with
    | struct fields => simp [TypeKind.toJson, carries_structField.list.plain (a := fields)]
    | enum variants => simp [TypeKind.toJson, carries_string.list.plain (a := variants)]
    | _ => exact .string _
  reads {kind} _ := by
    cases kind with
    | struct fields =>
      simp [TypeKind.toJson, TypeKind.ofJson?, variant?, record?_object,
        carries_structField.list.required (a := fields)]
    | enum variants =>
      simp [TypeKind.toJson, TypeKind.ofJson?, variant?, record?_object, carries_string.list.required (a := variants)]
    | _ => rfl

theorem carries_typeDefinition : Carries (fun _ => True) TypeDefinition.toJson TypeDefinition.ofJson? where
  plain _ := by simp [TypeDefinition.toJson, carries_typeKind.plain]
  reads {d} _ := by
    rw [TypeDefinition.ofJson?, TypeDefinition.toJson, record?_object (by simp)]
    simp [carries_string.required, carries_typeKind.required (a := d.kind)]

theorem carries_externalVariable : Carries (fun _ => True) ExternalVariable.toJson ExternalVariable.ofJson? where
  plain _ := by simp [ExternalVariable.toJson]
  reads {x} _ := by
    rw [ExternalVariable.ofJson?, ExternalVariable.toJson, record?_object (by simp)]
    simp [carries_string.required, carries_bool.optional]

theorem carries_compileOptions : Carries (fun _ => True) CompileOptions.toJson CompileOptions.ofJson? where
  plain {o} _ := by simp [CompileOptions.toJson, carries_string.list.plain (a := o.watchedPins)]
  reads {o} _ := by
    rw [CompileOptions.ofJson?, CompileOptions.toJson, record?_object (by simp)]
    simp [carries_bool.optional, carries_string.list.optional (a := o.watchedPins)]

/-! ## Documents -/

namespace Document

theorem carries_document : Carries (fun d : Document => d.tree.InRange) toJson ofJson? where
  plain {d} h := by
    simp [toJson, carries_typeDefinition.list.plain (a := d.types),
      carries_functionSignature.list.plain (a := d.functions), carries_externalVariable.list.plain (a := d.externals),
      (carries_compileOptions.option nofun).plain (a := d.options), carries_tree.plain h]
  reads {d} h := by
    rw [ofJson?, toJson, record?_object (by simp)]
    simp [carries_typeDefinition.list.optional (a := d.types),
      carries_functionSignature.list.optional (a := d.functions),
      carries_externalVariable.list.optional (a := d.externals),
      (carries_compileOptions.option nofun).optional (a := d.options), carries_tree.required h]

/-- A document whose ids have 32 bits is read back from its text. So writing what was read gives the text
again. -/
theorem ofText?_toText (d : Document) (h : d.tree.InRange) :
    ofText? d.toText = some d ∧ (ofText? d.toText).map toText = some d.toText := by
  have hparse : Json.parse? d.toText = some d.toJson :=
    parse?_render Layout.blank_pretty (carries_document.plain h)
  have hread : ofText? d.toText = some d := by
    rw [ofText?, hparse]
    exact carries_document.reads h
  exact ⟨hread, by rw [hread]; rfl⟩

end Document

/-- A document with texts that need escapes, ids up to the last one, and optional parts that are there or
missing. -/
def annotatedDocument : Document where
  types := [⟨"Pair", .struct [⟨"Left \"x\"", "int32"⟩]⟩, ⟨"Color", .enum ["Rot", "Grün\\\n"]⟩, ⟨"Flag", .bool⟩]
  functions := [⟨"use\x01\x1f", [⟨"Value", .inOut⟩]⟩]
  externals := [⟨"Speed 😀", "float", true⟩]
  tree := {
    graph := {
      nodes := [⟨"Go", .event "Go\t", [], none⟩, ⟨"Use", .unit "use\x01\x1f", [0], some 4294967295⟩]
      pins := [
        { node := 1, name := "Value", direction := .inOut, typeName := "Pair", defaultValue := "(1)", subPins := [1] },
        { node := 1, name := "", direction := .hidden, typeName := "int32", parent := some 0 }] }
    functions := [⟨"Sum", [{ name := "Total", typeName := "int32", isArray := true }]⟩]
    exprs := [
      { kind := .entry, name := "Go", children := [1], proxy := some ⟨[], .node 0⟩ },
      { kind := .copy, name := "/", parents := [0], proxy := some ⟨[4294967295, 7], .pin 0⟩,
        source := some ⟨[], .pin 1⟩ }]
    roots := [0]
    links := [⟨⟨[], .pin 0⟩, ⟨[0], .node 1⟩⟩] }

theorem Document.ofText?_toText_annotatedDocument :
    annotatedDocument.tree.InRange ∧ ofText? annotatedDocument.toText = some annotatedDocument ∧
      (ofText? annotatedDocument.toText).map toText = some annotatedDocument.toText := by
  have hrange : annotatedDocument.tree.InRange := by decide +kernel
  exact ⟨hrange, Document.ofText?_toText annotatedDocument hrange⟩

end NodeGraph
