import Mathlib.Data.List.Forall2
import Mathlib.Data.Prod.Basic
import NodeGraph.Proofs.Text
import NodeGraph.Proofs.Types.ListText
import NodeGraph.Proofs.Types.Nesting
import NodeGraph.Proofs.Types.Registry

/-!
# Canonical texts

Decoding gives the text of a value in a form that decodes to itself (`decode_normal`). For a structure this means that
the text which is printed from its members is cut at the same places again. Every member is an item of the grammar of
lists: zero values and variants are plain, nested structures stand in parentheses, and a scalar that was given as a
member was cut out of a list. A scalar by itself may be any text, also one with open quotes; so what is known of nested
values is known only of texts that are pieces of a list.
-/
namespace NodeGraph

open Text

/-! ## Lists of typed values -/

variable {α : Type}

theorem Typed.mapM_eq_ok_iff {β : Type} {f : α → Typed β} {as : List α} {bs : List β} :
    (as.mapM f).run = .ok (.ok bs) ↔ List.Forall₂ (fun a b => (f a).run = .ok (.ok b)) as bs := by
  induction as generalizing bs with
  | nil =>
    constructor
    · intro h
      cases h
      exact .nil
    · intro h
      cases h
      rfl
  | cons a as ih =>
    rw [List.mapM_cons, bind_eq_ok]
    constructor
    · rintro ⟨b, hb, h⟩
      obtain ⟨bs', hbs, h⟩ := bind_eq_ok.1 h
      cases h
      exact .cons hb (ih.1 hbs)
    · intro h
      cases h with
      | cons hb hbs => exact ⟨_, hb, bind_eq_ok.2 ⟨_, ih.2 hbs, rfl⟩⟩

namespace TypeRegistry

open ListText

variable {r : TypeRegistry} {depth position : Nat} {typeName variant : String} {info : TypeInfo}
  {text : List Char} {value : String} {fields : List StructField} {variants : List String}
  {complete : List (StructField × String)} {member : StructField × String} {values : List (Nat × String)}

/-! ## Names -/

/-- A name with no blanks around it and without the reserved characters. -/
structure IsName (reserved : List Char) (name : String) : Prop where
  nonempty : name ≠ ""
  trimmed : trim name.toList = name.toList
  free : ∀ c ∈ reserved, c ∉ name.toList

/-- Names of fields and variants that do not interfere with the way in which values are written. -/
structure WellNamed (r : TypeRegistry) : Prop where
  fields {name info fields} : r.get? name = some info → info.kind = .struct fields →
    (∀ field ∈ fields, IsName ['=', ',', '(', ')', '"'] field.name) ∧ (fields.map StructField.name).Nodup
  variants {name info variants} : r.get? name = some info → info.kind = .enum variants →
    ∀ variant ∈ variants, IsName [',', '(', ')', '"', ':'] variant

theorem IsName.plain {reserved : List Char} {name : String} (h : IsName reserved name)
    (hreserved : ∀ c ∈ ['"', '(', ')', ','], c ∈ reserved) : ∀ c ∈ name.toList, Plain c := by
  have hne {c d : Char} (hc : c ∈ name.toList) (hd : d ∈ ['"', '(', ')', ',']) : c ≠ d := by
    rintro rfl
    exact h.free c (hreserved c hd) hc
  exact fun c hc => ⟨hne hc (by simp), hne hc (by simp), hne hc (by simp), hne hc (by simp)⟩

theorem IsName.toList_ne_nil {reserved : List Char} {name : String} (h : IsName reserved name) : name.toList ≠ [] :=
  fun hnil => h.nonempty (String.toList_eq_nil_iff.1 hnil)

/-! ## Texts of structures -/

/-- The text `Member=Value`. -/
def memberText (member : StructField × String) : List Char := member.1.name.toList ++ '=' :: member.2.toList

theorem toList_structText (complete : List (StructField × String)) :
    (structText complete).toList = '(' :: ([','].intercalate (complete.map memberText) ++ [')']) := by
  rw [structText, String.toList_append, String.toList_append, toList_joined, List.map_map]
  refine congrArg (fun members => '(' :: ([','].intercalate members ++ [')'])) (List.map_congr_left fun member _ => ?_)
  simp [memberText]

/-- A member whose value is an item is one itself. -/
theorem item_memberText (hname : IsName ['=', ',', '(', ')', '"'] member.1.name) (hvalue : Item member.2.toList) :
    Item (memberText member) := by
  refine ⟨(hvalue.toPiece.cons (by decide)).append (hname.plain (by simp)), trim_eq_of_ends ?_ ?_⟩
  · intro c hc
    obtain ⟨d, rest, hrest⟩ := List.exists_cons_of_ne_nil hname.toList_ne_nil
    have hfirst := head?_trim member.1.name.toList
    rw [hname.trimmed, hrest] at hfirst
    rw [memberText, hrest] at hc
    exact hfirst c hc
  · intro c hc
    rw [memberText, List.getLast?_append, List.getLast?_cons] at hc
    cases hlast : member.2.toList.getLast? with
    | none =>
      rw [hlast] at hc
      cases hc
      decide
    | some d =>
      have hend := getLast?_trimRight (trimLeft member.2.toList)
      rw [← trim, hvalue.trimmed, hlast] at hend
      rw [hlast] at hc
      exact hend c hc

/-! ## What decoding reads -/

/-- A kind whose values have no parts and no names. -/
def IsScalar : TypeKind → Prop
  | .struct _ | .enum _ => False
  | _ => True

/-- The value given by an item of the text of a structure. -/
def Gives (r : TypeRegistry) (depth : Nat) (fields : List StructField) (item : List Char) (given : Nat × String) :
    Prop :=
  ∃ fieldType written, memberOf fields item = .ok (given.1, fieldType, written) ∧
    (r.decodeWithin depth fieldType written).run = .ok (.ok given.2)

/-- The value given to a field, or its zero value. -/
def Completes (r : TypeRegistry) (depth : Nat) (values : List (Nat × String)) (field : StructField × Nat)
    (value : String) : Prop :=
  givenValue values field.2 = some value ∨
    givenValue values field.2 = none ∧ (r.zeroWithin depth field.1.typeName).run = .ok (.ok value)

/-- What the text of a value of a registered type is decoded to. -/
inductive Decodes (r : TypeRegistry) (depth : Nat) (typeName : String) (info : TypeInfo) (text : List Char) :
    String → Prop
  | blank {zero : String} (hblank : trim text = []) (hzero : (r.zeroWithin (depth + 1) typeName).run = .ok (.ok zero)) :
    Decodes r depth typeName info text zero
  | struct {fields : List StructField} {items : List (List Char)} {values : List (Nat × String)}
    {complete : List (StructField × String)} (hne : trim text ≠ []) (hkind : info.kind = .struct fields)
    (hitems : splitList? (trim text) = some items) (hvalues : List.Forall₂ (r.Gives depth fields) items values)
    (hcomplete : List.Forall₂ (fun field member => member.1 = field.1 ∧ r.Completes depth values field member.2)
      fields.zipIdx complete) :
    Decodes r depth typeName info text (structText complete)
  | enum {variants : List String} {variant : String} (hne : trim text ≠ []) (hkind : info.kind = .enum variants)
    (hvariant : variant? variants (trim text) = some variant) : Decodes r depth typeName info text variant
  | scalar (hne : trim text ≠ []) (hkind : IsScalar info.kind) :
    Decodes r depth typeName info text (String.ofList (trim text))

theorem gives_iff {item : List Char} {given : Nat × String} :
    (match memberOf fields item with
      | .error reason => invalidDefault typeName (trim text) reason
      | .ok (position, fieldType, value) => do
        return (position, ← r.decodeWithin depth fieldType value) : Typed (Nat × String)).run = .ok (.ok given) ↔
      r.Gives depth fields item given := by
  unfold Gives
  cases memberOf fields item with
  | error reason =>
    constructor
    · intro h
      cases h
    · rintro ⟨fieldType, written, h, -⟩
      cases h
  | ok member =>
    constructor
    · intro h
      obtain ⟨value, hvalue, h⟩ := Typed.bind_eq_ok.1 h
      cases h
      exact ⟨_, _, rfl, hvalue⟩
    · rintro ⟨fieldType, written, h, hvalue⟩
      cases h
      exact Typed.bind_eq_ok.2 ⟨_, hvalue, rfl⟩

theorem completes_iff {field : StructField × Nat} :
    (match givenValue values field.2 with
      | some value => return (field.1, value)
      | none => return (field.1, ← r.zeroWithin depth field.1.typeName) : Typed (StructField × String)).run =
        .ok (.ok member) ↔ member.1 = field.1 ∧ r.Completes depth values field member.2 := by
  unfold Completes
  cases givenValue values field.2 with
  | some value =>
    constructor
    · intro h
      cases h
      exact ⟨rfl, .inl rfl⟩
    · obtain ⟨field', value'⟩ := member
      rintro ⟨rfl, h | ⟨h, -⟩⟩ <;> cases h
      rfl
  | none =>
    constructor
    · intro h
      obtain ⟨zero, hzero, h⟩ := Typed.bind_eq_ok.1 h
      cases h
      exact ⟨rfl, .inr ⟨rfl, hzero⟩⟩
    · obtain ⟨field', value'⟩ := member
      rintro ⟨rfl, h | ⟨-, hzero⟩⟩
      · cases h
      · exact Typed.bind_eq_ok.2 ⟨_, hzero, rfl⟩

theorem decodeWithin_eq_ok_iff (hinfo : r.get? typeName = some info) :
    (r.decodeWithin (depth + 1) typeName text).run = .ok (.ok value) ↔ r.Decodes depth typeName info text value := by
  unfold decodeWithin
  rw [show r.lookup typeName = pure info from lookup_eq_ok_iff.2 hinfo, pure_bind]
  dsimp only
  constructor
  · intro h
    split at h
    · next hblank => exact .blank (List.isEmpty_iff.1 hblank) h
    · next hne =>
      have hne : trim text ≠ [] := fun hnil => hne (by rw [hnil]; rfl)
      split at h
      · next fields hkind =>
        split at h
        · cases h
        · next items hitems =>
          obtain ⟨values, hvalues, h⟩ := Typed.bind_eq_ok.1 h
          obtain ⟨complete, hcomplete, h⟩ := Typed.bind_eq_ok.1 h
          cases h
          exact .struct hne hkind hitems ((Typed.mapM_eq_ok_iff.1 hvalues).imp fun _ _ => gives_iff.1)
            ((Typed.mapM_eq_ok_iff.1 hcomplete).imp fun _ _ => completes_iff.1)
      · next variants hkind =>
        split at h
        · next variant hvariant =>
          cases h
          exact .enum hne hkind hvariant
        · cases h
      · next hstruct henum =>
        cases h
        refine .scalar hne ?_
        cases hkind : info.kind with
        | struct fields => exact hstruct fields hkind
        | enum variants => exact henum variants hkind
        | _ => trivial
  · intro h
    cases h with
    | blank hblank hzero =>
      rw [hblank]
      exact hzero
    | struct hne hkind hitems hvalues hcomplete =>
      rw [if_neg (by simpa using hne), hkind]
      dsimp only
      rw [hitems]
      refine Typed.bind_eq_ok.2 ⟨_, Typed.mapM_eq_ok_iff.2 (hvalues.imp fun _ _ => gives_iff.2), ?_⟩
      exact Typed.bind_eq_ok.2 ⟨_, Typed.mapM_eq_ok_iff.2 (hcomplete.imp fun _ _ => completes_iff.2), rfl⟩
    | enum hne hkind hvariant =>
      rw [if_neg (by simpa using hne), hkind]
      dsimp only
      rw [hvariant]
      rfl
    | scalar hne hkind =>
      rw [if_neg (by simpa using hne)]
      cases hk : info.kind with
      | struct fields => rw [hk] at hkind; exact hkind.elim
      | enum variants => rw [hk] at hkind; exact hkind.elim
      | _ => rfl

/-! ## Settled values -/

/-- A text that can stand in a list and that decodes to itself. -/
structure Settled (r : TypeRegistry) (depth : Nat) (typeName value : String) : Prop where
  item : Item value.toList
  decodes : (r.decodeWithin depth typeName value.toList).run = .ok (.ok value)

theorem settled_scalar (hinfo : r.get? typeName = some info) (hkind : IsScalar info.kind) (hne : value.toList ≠ [])
    (hitem : Item value.toList) : r.Settled (depth + 1) typeName value := by
  refine ⟨hitem, (decodeWithin_eq_ok_iff hinfo).2 ?_⟩
  have h : r.Decodes depth typeName info value.toList (String.ofList (trim value.toList)) :=
    .scalar (by rwa [hitem.trimmed]) hkind
  rwa [hitem.trimmed, String.ofList_toList] at h

/-- The empty text is settled if it is that of the zero value. -/
theorem settled_empty (hinfo : r.get? typeName = some info)
    (hzero : (r.zeroWithin (depth + 1) typeName).run = .ok (.ok "")) : r.Settled (depth + 1) typeName "" :=
  ⟨⟨.nil, rfl⟩, (decodeWithin_eq_ok_iff hinfo).2 (.blank rfl hzero)⟩

/-! ### Variants -/

theorem beforeColons_eq_self {cs : List Char} (h : ':' ∉ cs) : beforeColons cs = cs := by
  induction cs with
  | nil => rfl
  | cons c cs ih =>
    rw [List.mem_cons, not_or] at h
    rw [beforeColons, ih h.2]
    rintro - rfl
    exact absurd rfl h.1

theorem mem_of_variant? (h : variant? variants text = some variant) : variant ∈ variants := by
  unfold variant? at h
  dsimp only at h
  split at h
  · next found hfound =>
    cases h
    exact List.mem_of_find?_eq_some hfound
  · obtain ⟨n, -, h⟩ := Option.bind_eq_some_iff.1 h
    exact List.mem_of_getElem? h

theorem variant?_of_mem (h : variant ∈ variants) (hcolon : ':' ∉ variant.toList) :
    variant? variants variant.toList = some variant := by
  have hname : variantName variant.toList = variant.toList := by
    rw [variantName, beforeColons_eq_self (by simpa using hcolon), List.reverse_reverse]
  unfold variant?
  rw [hname]
  dsimp only
  split
  · next found hfound =>
    have hsame : found.toList = variant.toList := by simpa using List.find?_some hfound
    rw [String.toList_inj.1 hsame]
  · next hnone => exact absurd (List.find?_eq_none.1 hnone variant h) (by simp)

theorem settled_variant (hr : r.WellNamed) (hinfo : r.get? typeName = some info)
    (hkind : info.kind = .enum variants) (h : variant ∈ variants) : r.Settled (depth + 1) typeName variant := by
  have hname := hr.variants hinfo hkind variant h
  refine ⟨.of_plain (hname.plain (by simp)) hname.trimmed, (decodeWithin_eq_ok_iff hinfo).2 ?_⟩
  refine .enum (by rw [hname.trimmed]; exact hname.toList_ne_nil) hkind ?_
  rw [hname.trimmed]
  exact variant?_of_mem h (hname.free ':' (by simp))

/-! ### Structures -/

/-- A field is found by its name. -/
theorem find?_field {field : StructField} (hnames : (fields.map StructField.name).Nodup)
    (h : fields[position]? = some field) :
    fields.zipIdx.find? (·.1.name.toList = field.name.toList) = some (field, position) := by
  cases hfind : fields.zipIdx.find? (·.1.name.toList = field.name.toList) with
  | none => exact absurd (List.find?_eq_none.1 hfind (field, position) (List.mem_zipIdx_iff_getElem?.2 h)) (by simp)
  | some found =>
    obtain ⟨field', position'⟩ := found
    have hsame : field'.name = field.name := String.toList_inj.1 (by simpa using List.find?_some hfind)
    have hfound : fields[position']? = some field' := List.mem_zipIdx_iff_getElem?.1 (List.mem_of_find?_eq_some hfind)
    have hposition : position' = position := by
      refine (List.getElem?_inj ?_ hnames).1 ?_
      · rw [List.length_map]
        exact (List.getElem?_eq_some_iff.1 hfound).1
      · rw [List.getElem?_map, List.getElem?_map, hfound, h, Option.map_some, Option.map_some, hsame]
    subst hposition
    cases hfound.symm.trans h
    rfl

theorem memberOf_memberText (hnames : (fields.map StructField.name).Nodup)
    (hfield : fields[position]? = some member.1) (hname : IsName ['=', ',', '(', ')', '"'] member.1.name)
    (hvalue : trim member.2.toList = member.2.toList) :
    memberOf fields (memberText member) = .ok (position, member.1.typeName, member.2.toList) := by
  have hsplit : splitAssignment? (memberText member) = some (member.1.name.toList, member.2.toList) :=
    splitAssignment?_eq_some_iff.2 ⟨member.1.name.toList, member.2.toList, rfl, hname.free '=' (by simp),
      hname.trimmed.symm, hvalue.symm, hname.toList_ne_nil, hname.free '(' (by simp), hname.free '"' (by simp)⟩
  unfold memberOf
  rw [hsplit]
  dsimp only
  rw [find?_field hnames hfield]

/-- The values that stand in a list in order are given to the fields in order. -/
theorem givenValue_zipIdx (values : List String) (position : Nat) :
    givenValue (values.zipIdx.map Prod.swap) position = values[position]? := by
  have hmem {position : Nat} {value : String} :
      (position, value) ∈ (values.zipIdx.map Prod.swap).reverse ↔ values[position]? = some value := by
    simp [List.mem_zipIdx_iff_getElem?]
  unfold givenValue
  cases hfind : (values.zipIdx.map Prod.swap).reverse.find? (·.1 = position) with
  | none =>
    cases hvalue : values[position]? with
    | none => rfl
    | some value => exact absurd (List.find?_eq_none.1 hfind _ (hmem.2 hvalue)) (by simp)
  | some found =>
    have hposition : found.1 = position := by simpa using List.find?_some hfind
    have hfound := hmem.1 (List.mem_of_find?_eq_some hfind)
    rw [hposition] at hfound
    rw [hfound, Option.map_some]

theorem splitList?_members (h : ∀ item ∈ complete.map memberText, Item item) :
    splitList? ('(' :: ([','].intercalate (complete.map memberText) ++ [')'])) = some (complete.map memberText) := by
  cases complete with
  | nil => rfl
  | cons member complete => exact splitList?_intercalate (by simp) (by simp [memberText]) h

/-- The members give their values in order. -/
theorem gives_members (h : ∀ {member : StructField × String} {position : Nat}, complete[position]? = some member →
      r.Gives depth fields (memberText member) (position, member.2)) :
    List.Forall₂ (r.Gives depth fields) (complete.map memberText) ((complete.map Prod.snd).zipIdx.map Prod.swap) := by
  have hmembers : complete.map memberText = complete.zipIdx.map fun x => memberText x.1 := by
    calc complete.map memberText = (complete.zipIdx.map Prod.fst).map memberText := by rw [List.zipIdx_map_fst]
      _ = complete.zipIdx.map fun x => memberText x.1 := List.map_map
  rw [hmembers, List.zipIdx_map, List.map_map, List.forall₂_map_left_iff, List.forall₂_map_right_iff, List.forall₂_same]
  rintro ⟨member, position⟩ hx
  exact h (List.mem_zipIdx_iff_getElem?.1 hx)

/-- A list of members is complete if each field is given its value. -/
theorem completes_members
    (h : ∀ {member : StructField × String} {position : Nat}, complete[position]? = some member →
      givenValue values position = some member.2) :
    List.Forall₂ (fun field member => member.1 = field.1 ∧ r.Completes depth values field member.2)
      (complete.map Prod.fst).zipIdx complete := by
  have hpaired : List.Forall₂ (fun field member => member.1 = field.1 ∧ r.Completes depth values field member.2)
      (complete.map Prod.fst).zipIdx (complete.zipIdx.map Prod.fst) := by
    rw [List.zipIdx_map, List.forall₂_map_left_iff, List.forall₂_map_right_iff, List.forall₂_same]
    rintro ⟨member, position⟩ hx
    exact ⟨rfl, .inl (h (List.mem_zipIdx_iff_getElem?.1 hx))⟩
  rwa [List.zipIdx_map_fst] at hpaired

/-- The text that is written from the settled values of all fields is settled. -/
theorem settled_structText (hr : r.WellNamed) (hinfo : r.get? typeName = some info)
    (hkind : info.kind = .struct (complete.map Prod.fst))
    (h : ∀ member ∈ complete, r.Settled depth member.1.typeName member.2) :
    r.Settled (depth + 1) typeName (structText complete) := by
  obtain ⟨hnames, hdistinct⟩ := hr.fields hinfo hkind
  have hitems : ∀ item ∈ complete.map memberText, Item item := by
    intro item hitem
    obtain ⟨member, hmember, rfl⟩ := List.mem_map.1 hitem
    exact item_memberText (hnames member.1 (List.mem_map_of_mem hmember)) (h member hmember).item
  have htrimmed := trim_parenthesized ([','].intercalate (complete.map memberText))
  refine ⟨?_, (decodeWithin_eq_ok_iff hinfo).2 ?_⟩
  · rw [toList_structText]
    exact ⟨.group (.intercalate fun item hitem => (hitems item hitem).toPiece), htrimmed⟩
  rw [toList_structText]
  have hsplit : splitList? (trim ('(' :: ([','].intercalate (complete.map memberText) ++ [')']))) =
      some (complete.map memberText) := by
    rw [htrimmed]
    exact splitList?_members hitems
  refine .struct (by rw [htrimmed]; simp) hkind hsplit (gives_members fun hmember => ?_)
    (completes_members fun hmember => ?_)
  · have hsettled := h _ (List.mem_of_getElem? hmember)
    refine ⟨_, _, ?_, hsettled.decodes⟩
    exact memberOf_memberText hdistinct (by rw [List.getElem?_map, hmember, Option.map_some])
      (hnames _ (List.mem_map_of_mem (List.mem_of_getElem? hmember))) hsettled.item.trimmed
  · rw [givenValue_zipIdx, List.getElem?_map, hmember, Option.map_some]

/-- What is known of each member of a list that was completed along another one. -/
theorem members_of_forall₂ {f : α → StructField} {P : α → String → Prop} {xs : List α}
    (h : List.Forall₂ (fun x member => member.1 = f x ∧ P x member.2) xs complete) :
    complete.map Prod.fst = xs.map f ∧ ∀ member ∈ complete, ∃ x ∈ xs, member.1 = f x ∧ P x member.2 := by
  induction h with
  | nil => exact ⟨rfl, by simp⟩
  | cons hhead _ ih =>
    obtain ⟨hfields, hmembers⟩ := ih
    refine ⟨by rw [List.map_cons, List.map_cons, hfields, hhead.1], List.forall_mem_cons.2 ⟨⟨_, by simp, hhead⟩, ?_⟩⟩
    intro member hmember
    obtain ⟨x, hx, hP⟩ := hmembers member hmember
    exact ⟨x, by simp [hx], hP⟩

/-! ## Zero values -/

theorem settled_literal (hinfo : r.get? typeName = some info) (hkind : IsScalar info.kind)
    (hne : value.toList ≠ []) (hplain : (value.toList.all fun c => Plain c) = true)
    (htrimmed : trim value.toList = value.toList) : r.Settled (depth + 1) typeName value :=
  settled_scalar hinfo hkind hne (.of_plain (by simpa using hplain) htrimmed)

theorem settled_zeroWithin (hr : r.WellNamed) (h : (r.zeroWithin depth typeName).run = .ok (.ok value)) :
    r.Settled depth typeName value := by
  induction depth generalizing typeName value with
  | zero => cases h
  | succ depth ih =>
    have hzero := h
    unfold zeroWithin at h
    obtain ⟨info, hinfo, h⟩ := Typed.bind_eq_ok.1 h
    have hinfo := lookup_eq_ok_iff.1 hinfo
    cases hkind : info.kind with
    | struct fields =>
      rw [hkind] at h
      obtain ⟨complete, hcomplete, h⟩ := Typed.bind_eq_ok.1 h
      cases h
      have hzeros : List.Forall₂ (fun field member => member.1 = field ∧ r.Settled depth field.typeName member.2)
          fields complete := by
        refine (Typed.mapM_eq_ok_iff.1 hcomplete).imp fun field member hmember => ?_
        obtain ⟨zero, hzero, hmember⟩ := Typed.bind_eq_ok.1 hmember
        cases hmember
        exact ⟨rfl, ih hzero⟩
      obtain ⟨hfields, hmembers⟩ := members_of_forall₂ hzeros
      rw [List.map_id'] at hfields
      refine settled_structText hr hinfo (hfields ▸ hkind) fun member hmember => ?_
      obtain ⟨field, -, rfl, hsettled⟩ := hmembers member hmember
      exact hsettled
    | enum variants =>
      rw [hkind] at h
      cases variants with
      | nil =>
        cases h
        exact settled_empty hinfo hzero
      | cons variant variants =>
        cases h
        exact settled_variant hr hinfo hkind (by simp)
    | string | execute =>
      rw [hkind] at h
      cases h
      exact settled_empty hinfo hzero
    | bool | int32 | float | double | name =>
      rw [hkind] at h
      cases h
      exact settled_literal hinfo (by rw [hkind]; trivial) (by decide) (by decide) (by decide)

/-! ## Decoded values -/

theorem memberOf_eq_ok {item written : List Char} {fieldType : String}
    (h : memberOf fields item = .ok (position, fieldType, written)) :
    ∃ key field, splitAssignment? item = some (key, written) ∧ fields[position]? = some field ∧
      field.typeName = fieldType := by
  unfold memberOf at h
  split at h
  · cases h
  · next key value hsplit =>
    split at h
    · cases h
    · next field found hfind =>
      cases h
      exact ⟨key, field, hsplit, List.mem_zipIdx_iff_getElem?.1 (List.mem_of_find?_eq_some hfind), rfl⟩

theorem mem_of_givenValue (h : givenValue values position = some value) : (position, value) ∈ values := by
  obtain ⟨found, hfind, rfl⟩ := Option.map_eq_some_iff.1 h
  have hposition : found.1 = position := by simpa using List.find?_some hfind
  subst hposition
  exact List.mem_reverse.1 (List.mem_of_find?_eq_some hfind)

theorem exists_of_mem_right {β : Type} {R : α → β → Prop} {as : List α} {bs : List β} (h : List.Forall₂ R as bs)
    {b : β} (hb : b ∈ bs) : ∃ a ∈ as, R a b := by
  induction h with
  | nil => cases hb
  | cons hhead _ ih =>
    rcases List.mem_cons.1 hb with rfl | hb
    · exact ⟨_, by simp, hhead⟩
    · obtain ⟨a, ha, hR⟩ := ih hb
      exact ⟨a, by simp [ha], hR⟩

/-- A decoded text decodes to itself. If it was cut out of a list, it can be put into one. -/
theorem decodeWithin_normal (hr : r.WellNamed) (h : (r.decodeWithin depth typeName text).run = .ok (.ok value)) :
    (r.decodeWithin depth typeName value.toList).run = .ok (.ok value) ∧ (Piece text → Item value.toList) := by
  have of_settled {depth : Nat} {typeName value : String} {text : List Char}
      (hsettled : r.Settled depth typeName value) :
      (r.decodeWithin depth typeName value.toList).run = .ok (.ok value) ∧ (Piece text → Item value.toList) :=
    ⟨hsettled.decodes, fun _ => hsettled.item⟩
  induction depth generalizing typeName text value with
  | zero => cases h
  | succ depth ih =>
    obtain ⟨info, hinfo⟩ : ∃ info, r.get? typeName = some info := by
      unfold decodeWithin at h
      obtain ⟨info, hinfo, -⟩ := Typed.bind_eq_ok.1 h
      exact ⟨info, lookup_eq_ok_iff.1 hinfo⟩
    cases (decodeWithin_eq_ok_iff hinfo).1 h with
    | blank _ hzero => exact of_settled (settled_zeroWithin hr hzero)
    | enum _ hkind hvariant => exact of_settled (settled_variant hr hinfo hkind (mem_of_variant? hvariant))
    | scalar hne hkind =>
      have hagain : r.Decodes depth typeName info (trim text) (String.ofList (trim (trim text))) :=
        .scalar (by rwa [trim_trim]) hkind
      rw [trim_trim] at hagain
      rw [String.toList_ofList]
      exact ⟨(decodeWithin_eq_ok_iff hinfo).2 hagain, Piece.trim⟩
    | @struct fields items values complete _ hkind hitems hvalues hcomplete =>
      obtain ⟨hfields, hmembers⟩ := members_of_forall₂ hcomplete
      rw [List.zipIdx_map_fst] at hfields
      refine of_settled (settled_structText hr hinfo (hfields ▸ hkind) fun member hmember => ?_)
      obtain ⟨⟨field, position⟩, hfield, hsame, hgiven | ⟨-, hzero⟩⟩ := hmembers member hmember
      · -- The value was given by an item of the list.
        obtain ⟨item, hitem, fieldType, written, hmemberOf, hdecoded⟩ :=
          exists_of_mem_right hvalues (mem_of_givenValue hgiven)
        obtain ⟨key, field', hsplit, hfield', rfl⟩ := memberOf_eq_ok hmemberOf
        cases (List.mem_zipIdx_iff_getElem?.1 hfield).symm.trans hfield'
        obtain ⟨hagain, hitem'⟩ := ih hdecoded
        rw [hsame]
        exact ⟨hitem' ((items_of_splitList? hitems item hitem).toPiece.value hsplit).toPiece, hagain⟩
      · rw [hsame]
        exact settled_zeroWithin hr hzero

/-! ## All registered types -/

/-- Where the types of all fields are registered, registered types can be followed down without a type error. -/
theorem Closed.followed (hr : r.Closed) (E : TypeError → Prop) :
    r.Followed (fun _ => True) E fun _ typeName => ∃ info, r.get? typeName = some info where
  stop _ := trivial
  unknown := by
    rintro _ typeName ⟨info, hinfo⟩ hnone
    cases hinfo.symm.trans hnone
  inner := by
    rintro _ typeName inner - ⟨info, fields, hinfo, hkind, field, hfield, rfl⟩
    exact Option.isSome_iff_exists.1 (hr hinfo hkind field hfield)

theorem exists_of_zeroWithin (hr : r.Closed) (hinfo : r.get? typeName = some info) {result : Except TypeError String}
    (h : (r.zeroWithin depth typeName).run = .ok result) : ∃ zero, result = .ok zero := by
  cases result with
  | ok zero => exact ⟨zero, rfl⟩
  | error e => exact (((hr.followed fun _ => False).ends_zeroWithin ⟨info, hinfo⟩).error e h).elim

/-- If no type contains itself and names do not interfere with the way in which values are written, a text that was
decoded decodes to itself, and so does the zero value, which every registered type has. -/
theorem decode_normal (hr : r.Reachable) (hacyclic : r.Acyclic) (hnames : r.WellNamed)
    (hinfo : r.get? typeName = some info) :
    (∀ text canonical, (r.decode typeName text).run = .ok (.ok canonical) →
      (r.decode typeName canonical).run = .ok (.ok canonical)) ∧
    ∃ zero, (r.zeroValue typeName).run = .ok (.ok zero) ∧ (r.decode typeName zero).run = .ok (.ok zero) := by
  refine ⟨fun text canonical h => (decodeWithin_normal hnames h).1, ?_⟩
  obtain ⟨result, hresult⟩ := answers_zeroValue hacyclic typeName
  obtain ⟨zero, rfl⟩ := exists_of_zeroWithin hr.closed hinfo hresult
  exact ⟨zero, hresult, (settled_zeroWithin hnames hresult).decodes⟩

/-! ## A structure in a structure -/

/-- Types are nested without an end only if their ranks go down without one. -/
theorem acyclic_of_rank (rank : String → Nat) (h : ∀ {outer inner}, r.Contains outer inner → rank inner < rank outer) :
    r.Acyclic := by
  have hlt {outer inner : String} (hchain : Relation.TransGen r.Contains outer inner) : rank inner < rank outer := by
    induction hchain with
    | single hstep => exact h hstep
    | tail _ hstep ih => exact Nat.lt_trans (h hstep) ih
  exact fun name hname => Nat.lt_irrefl _ (hlt hname)

instance (reserved : List Char) (name : String) : Decidable (IsName reserved name) :=
  decidable_of_iff (name ≠ "" ∧ trim name.toList = name.toList ∧ (reserved.all fun c => c ∉ name.toList) = true)
    ⟨fun h => ⟨h.1, h.2.1, by simpa using h.2.2⟩, fun h => ⟨h.nonempty, h.trimmed, by simpa using h.free⟩⟩

def axisType : TypeDefinition := ⟨"Axis", .enum ["X", "Y"]⟩

def labelType : TypeDefinition := ⟨"Label", .struct [⟨"Text", "string"⟩, ⟨"Along", "Axis"⟩]⟩

def markType : TypeDefinition := ⟨"Mark", .struct [⟨"Label", "Label"⟩, ⟨"Size", "int32"⟩]⟩

/-- The built-in types and a structure in a structure. -/
def markTypes : TypeRegistry :=
  ⟨builtin.types ++ [⟨"Axis", axisType.kind, 1, 1⟩, ⟨"Label", labelType.kind, 32, 8⟩, ⟨"Mark", markType.kind, 40, 8⟩]⟩

theorem reachable_markTypes : markTypes.Reachable := by
  have haxis := Reachable.builtin.register (d := axisType) rfl
  have hlabel := haxis.register (d := labelType) rfl
  exact hlabel.register (d := markType) rfl

theorem kind_of_get?_markTypes (h : markTypes.get? name = some info) :
    IsScalar info.kind ∨ (name = "Axis" ∧ info.kind = axisType.kind) ∨ (name = "Label" ∧ info.kind = labelType.kind) ∨
      (name = "Mark" ∧ info.kind = markType.kind) := by
  have hname := name_of_get? h
  have hmem := List.mem_of_find?_eq_some h
  simp only [markTypes, builtin, List.cons_append, List.nil_append, List.mem_cons, List.not_mem_nil, or_false] at hmem
  rcases hmem with rfl | rfl | rfl | rfl | rfl | rfl | rfl | rfl | rfl | rfl
  case inr.inr.inr.inr.inr.inr.inr.inl => exact .inr (.inl ⟨hname.symm, rfl⟩)
  case inr.inr.inr.inr.inr.inr.inr.inr.inl => exact .inr (.inr (.inl ⟨hname.symm, rfl⟩))
  case inr.inr.inr.inr.inr.inr.inr.inr.inr => exact .inr (.inr (.inr ⟨hname.symm, rfl⟩))
  all_goals exact .inl trivial

theorem acyclic_markTypes : markTypes.Acyclic := by
  refine acyclic_of_rank (fun name => if name = "Mark" then 2 else if name = "Label" then 1 else 0) ?_
  rintro outer inner ⟨info, fields, hinfo, hkind, field, hfield, rfl⟩
  rcases kind_of_get?_markTypes hinfo with h | ⟨-, h⟩ | ⟨rfl, h⟩ | ⟨rfl, h⟩
  · rw [hkind] at h
    exact h.elim
  · cases hkind.symm.trans h
  all_goals
    cases hkind.symm.trans h
    revert field
    decide

theorem wellNamed_markTypes : markTypes.WellNamed where
  fields {name info fields} hinfo hkind := by
    rcases kind_of_get?_markTypes hinfo with h | ⟨-, h⟩ | ⟨-, h⟩ | ⟨-, h⟩
    · rw [hkind] at h
      exact h.elim
    · cases hkind.symm.trans h
    all_goals
      cases hkind.symm.trans h
      decide
  variants {name info variants} hinfo hkind := by
    rcases kind_of_get?_markTypes hinfo with h | ⟨-, h⟩ | ⟨-, h⟩ | ⟨-, h⟩
    · rw [hkind] at h
      exact h.elim
    · cases hkind.symm.trans h
      decide
    all_goals cases hkind.symm.trans h

/-- A string with a comma and a parenthesis stays one member, the number of a variant becomes its name, and the field
that is left out has its zero value. -/
theorem decode_normal_markTypes : markTypes.Reachable ∧ markTypes.Acyclic ∧ markTypes.WellNamed ∧
    (markTypes.decode "Mark" "(Label=( Text = \"a,(\" , Along=1 ))").run =
      .ok (.ok "(Label=(Text=\"a,(\",Along=Y),Size=0)") ∧
    (markTypes.decode "Mark" "(Label=(Text=\"a,(\",Along=Y),Size=0)").run =
      .ok (.ok "(Label=(Text=\"a,(\",Along=Y),Size=0)") := by
  have hinfo : markTypes.get? "Mark" = some ⟨"Mark", markType.kind, 40, 8⟩ := by decide
  have hdecode : (markTypes.decode "Mark" "(Label=( Text = \"a,(\" , Along=1 ))").run =
      .ok (.ok "(Label=(Text=\"a,(\",Along=Y),Size=0)") := by decide +kernel
  obtain ⟨hnormal, -⟩ := decode_normal reachable_markTypes acyclic_markTypes wellNamed_markTypes hinfo
  exact ⟨reachable_markTypes, acyclic_markTypes, wellNamed_markTypes, hdecode, hnormal _ _ hdecode⟩

end TypeRegistry
end NodeGraph
