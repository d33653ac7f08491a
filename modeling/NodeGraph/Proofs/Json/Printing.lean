import NodeGraph.Json.Printer
import NodeGraph.Json.Reader

/-!
# Printed values are read back

A value without odd numbers and unreadable parts is the value of its printed text, in every layout whose
lines start with blanks (`parse?_render`). The two layers of the reader are taken one after the other. Its text
falls into the tokens of the value (`lexes_render`), where only a number could be drawn out by the text
behind it. And the tokens of a value are read as the value, whatever tokens follow (`readValue?_tokens`).
-/
namespace NodeGraph.Json

/-! ## Strings -/

variable {rest cs blanks : List Char} {c : Char} {n : Nat}

/-- The unit by which a character is written. -/
def unitOf (c : Char) : StringUnit :=
  if c.toNat < 0x20 ∧ c ∉ ['\x08', '\t', '\n', '\x0c', '\r'] then .code c.toNat else .plain c

/-- A control character is written with four hexadecimal digits. -/
theorem hexCode?_control (h : n < 0x20) :
    hexCode? '0' '0' (hexDigit (n / 16)) (hexDigit (n % 16)) = some n := by
  have hall : ∀ n < 0x20, hexCode? '0' '0' (hexDigit (n / 16)) (hexDigit (n % 16)) = some n := by decide
  exact hall n h

/-- One character is read back as its unit. -/
theorem stringUnits?_escaped (c : Char) (rest : List Char) :
    stringUnits? (escaped c ++ rest) = (stringUnits? rest).map fun r => (unitOf c :: r.1, r.2) := by
  have hmap (u : StringUnit) : (do
      let r ← stringUnits? rest
      return (u :: r.1, r.2)) = (stringUnits? rest).map fun r => (u :: r.1, r.2) := by
    cases stringUnits? rest <;> rfl
  by_cases hquote : c = '"'
  · subst hquote
    exact hmap (.plain '"')
  by_cases hslash : c = '\\'
  · subst hslash
    exact hmap (.plain '\\')
  by_cases hshort : c ∈ ['\x08', '\t', '\n', '\x0c', '\r']
  · simp only [List.mem_cons, List.not_mem_nil, or_false] at hshort
    rcases hshort with rfl | rfl | rfl | rfl | rfl
    · exact hmap (.plain '\x08')
    · exact hmap (.plain '\t')
    · exact hmap (.plain '\n')
    · exact hmap (.plain '\x0c')
    · exact hmap (.plain '\r')
  have hnames := hshort
  simp only [List.mem_cons, List.not_mem_nil, or_false, not_or] at hnames
  obtain ⟨hb, ht, hn, hf, hr⟩ := hnames
  by_cases hcontrol : c.toNat < 0x20
  · have hunit : unitOf c = .code c.toNat := if_pos ⟨hcontrol, hshort⟩
    rw [hunit, ← hmap]
    simp only [escaped, hquote, hslash, hb, ht, hn, hf, hr, hcontrol, if_true, if_false, List.cons_append,
      List.nil_append, stringUnits?, hexCode?_control hcontrol]
    rfl
  · have hunit : unitOf c = .plain c := if_neg fun h => hcontrol h.1
    rw [hunit, ← hmap]
    simp only [escaped, hquote, hslash, hb, ht, hn, hf, hr, hcontrol, if_false, List.cons_append, List.nil_append]
    rw [stringUnits?.eq_5 c rest hquote (fun _ _ _ _ _ h => absurd h hslash) fun _ _ h => absurd h hslash]
    simp [hcontrol, hslash]

theorem stringUnits?_quoted (cs rest : List Char) :
    stringUnits? (cs.flatMap escaped ++ '"' :: rest) = some (cs.map unitOf, rest) := by
  induction cs with
  | nil => rfl
  | cons c cs ih =>
    rw [List.flatMap_cons, List.append_assoc, stringUnits?_escaped, ih]
    rfl

/-- A number that is no half of a pair stands for itself, also in front of another number. -/
theorem unitsText?_code (hhigh : isHighSurrogate n = false) (hlow : isLowSurrogate n = false)
    (us : List StringUnit) : unitsText? (.code n :: us) = (unitsText? us).map (Char.ofNat n :: ·) := by
  cases us with
  | nil => simp only [unitsText?, hhigh, hlow, Bool.or_self, Bool.false_eq_true, if_false]
  | cons u us => cases u <;> simp only [unitsText?, hhigh, hlow, Bool.or_self, Bool.false_eq_true, if_false]

theorem unitsText?_units (cs : List Char) : unitsText? (cs.map unitOf) = some cs := by
  induction cs with
  | nil => rfl
  | cons c cs ih =>
    rw [List.map_cons]
    by_cases hunit : c.toNat < 0x20 ∧ c ∉ ['\x08', '\t', '\n', '\x0c', '\r']
    · have hcontrol := hunit.1
      have hhigh : isHighSurrogate c.toNat = false := by
        simp [isHighSurrogate]
        omega
      have hlow : isLowSurrogate c.toNat = false := by
        simp [isLowSurrogate]
        omega
      rw [unitOf, if_pos hunit, unitsText?_code hhigh hlow, ih, Char.ofNat_toNat]
      rfl
    · rw [unitOf, if_neg hunit, unitsText?, ih]
      rfl

/-! ## Numbers -/

theorem isDigit_eq (c : Char) : isDigit c = c.isDigit := by
  simp [isDigit, Char.isDigit, Char.le_def]

/-- The digits of a number start with a zero only if it is zero. -/
theorem head?_toDigits (h : (Nat.toDigits 10 n).head? = some '0') : n = 0 := by
  induction n using Nat.strongRecOn with
  | ind n ih =>
    by_cases hn : n < 10
    · rw [Nat.toDigits_of_lt_base hn] at h
      have hall : ∀ n < 10, [n.digitChar].head? = some '0' → n = 0 := by decide
      exact hall n hn h
    · have hhead : (Nat.toDigits 10 (n / 10)).head? = some '0' := by
        rw [Nat.toDigits_of_base_le (by decide) (by omega), List.head?_append] at h
        cases hds : Nat.toDigits 10 (n / 10) with
        | nil => exact absurd hds Nat.toDigits_ne_nil
        | cons d ds => simpa [hds] using h
      have hzero := ih (n / 10) (by omega) hhead
      omega

/-- What may follow a number without becoming a part of it. -/
def Stops (rest : List Char) : Prop :=
  ∀ c ∈ rest.head?, isDigit c = false ∧ c ≠ '.' ∧ c ≠ 'e' ∧ c ≠ 'E'

theorem stops_nil : Stops [] := by simp [Stops]

theorem stops_cons (h : isDigit c = false ∧ c ≠ '.' ∧ c ≠ 'e' ∧ c ≠ 'E') : Stops (c :: rest) := by
  intro c' hc'
  cases hc'
  exact h

theorem Stops.fractionPart? (h : Stops rest) : fractionPart? rest = some ([], rest) := by
  unfold Json.fractionPart?
  split
  · exact absurd rfl (h '.' rfl).2.1
  · rfl

theorem Stops.exponentPart? (h : Stops rest) : exponentPart? rest = some ([], rest) := by
  unfold Json.exponentPart?
  split
  · exact absurd rfl (h 'e' rfl).2.2.1
  · exact absurd rfl (h 'E' rfl).2.2.2
  · rfl

/-- Digits are taken up to a character that is none. -/
theorem digits?_append {ds : List Char} (hne : ds ≠ []) (hds : ∀ c ∈ ds, isDigit c = true) (h : Stops rest) :
    digits? (ds ++ rest) = some (ds, rest) := by
  have hstop : rest.takeWhile isDigit = [] ∧ rest.dropWhile isDigit = rest := by
    cases rest with
    | nil => exact ⟨rfl, rfl⟩
    | cons c rest => simp [(h c rfl).1]
  have htake : (ds ++ rest).takeWhile isDigit = ds := by
    rw [List.takeWhile_append_of_pos hds, hstop.1, List.append_nil]
  have hdrop : (ds ++ rest).dropWhile isDigit = rest := by
    rw [List.dropWhile_append_of_pos hds, hstop.2]
  unfold digits?
  rw [htake, hdrop]
  cases ds with
  | nil => exact absurd rfl hne
  | cons d ds => rfl

theorem integerPart?_toDigits (n : Nat) (h : Stops rest) :
    integerPart? (Nat.toDigits 10 n ++ rest) = some (Nat.toDigits 10 n, rest) := by
  have hds : ∀ c ∈ Nat.toDigits 10 n, isDigit c = true := fun c hc => by
    rw [isDigit_eq]
    exact Nat.isDigit_of_mem_toDigits (by decide) (by decide) hc
  unfold integerPart?
  rw [digits?_append Nat.toDigits_ne_nil hds h]
  have hlead : ¬((Nat.toDigits 10 n).length > 1 ∧ (Nat.toDigits 10 n).head? = some '0') := by
    rintro ⟨hlength, hhead⟩
    rw [head?_toDigits hhead] at hlength
    exact absurd hlength (by decide)
  simpa using hlead

theorem number?_toDigits (n : Nat) (h : Stops rest) :
    number? (Nat.toDigits 10 n ++ rest) = some (.natural n, rest) := by
  have hsign : ∀ tail, Nat.toDigits 10 n ++ rest ≠ '-' :: tail := by
    intro tail heq
    cases hds : Nat.toDigits 10 n with
    | nil => exact Nat.toDigits_ne_nil hds
    | cons d ds =>
      rw [hds] at heq
      have hd : d.isDigit = true :=
        Nat.isDigit_of_mem_toDigits (b := 10) (n := n) (by decide) (by decide) (by simp [hds])
      rw [(List.cons.inj heq).1] at hd
      exact absurd hd (by decide)
  unfold number?
  split
  next sign cs heq =>
  split at heq
  · next tail htail => exact absurd htail (hsign tail)
  · cases heq
    simp [integerPart?_toDigits n h, h.fractionPart?, h.exponentPart?, Nat.ofDigitChars_ten_toDigits]

theorem token?_of_isDigit (h : isDigit c = true) : token? (c :: cs) = number? (c :: cs) := by
  have hne {c' : Char} (hc' : isDigit c' = false) : c ≠ c' := by
    rintro rfl
    rw [h] at hc'
    cases hc'
  have hother {c' : Char} (hc' : isDigit c' = false) {rest : List Char} (heq : c :: cs = c' :: rest) : False :=
    hne hc' (List.cons.inj heq).1
  exact token?.eq_11 _ (fun _ => hother rfl) (fun _ => hother rfl) (fun _ => hother rfl) (fun _ => hother rfl)
    (fun _ => hother rfl) (fun _ => hother rfl) (fun _ => hother rfl) (fun _ => hother rfl) (fun _ => hother rfl)
    fun _ => hother rfl

theorem token?_toDigits (n : Nat) (h : Stops rest) :
    token? (Nat.toDigits 10 n ++ rest) = some (.natural n, rest) := by
  rw [← number?_toDigits n h]
  cases hds : Nat.toDigits 10 n with
  | nil => exact absurd hds Nat.toDigits_ne_nil
  | cons d ds =>
    refine token?_of_isDigit ?_
    rw [isDigit_eq]
    exact Nat.isDigit_of_mem_toDigits (b := 10) (n := n) (by decide) (by decide) (by simp [hds])

theorem token?_quoted (text : String) (rest : List Char) :
    token? (quoted text ++ rest) = some (.string (some text), rest) := by
  have hunits := stringUnits?_quoted text.toList rest
  simp [quoted, token?, hunits, unitsText?_units]

/-! ## Tokens of a text -/

theorem tokensWithin?_cons (hc : isSpace c = false) (n : Nat) :
    tokensWithin? (n + 1) (c :: cs) =
      (token? (c :: cs)).bind fun r => (tokensWithin? n r.2).map (r.1 :: ·) := by
  simp only [tokensWithin?, List.dropWhile_cons, hc, Bool.false_eq_true, if_false]
  cases token? (c :: cs) with
  | none => rfl
  | some r =>
    obtain ⟨t, tail⟩ := r
    show (do return t :: (← tokensWithin? n tail)) = (tokensWithin? n tail).map (t :: ·)
    cases tokensWithin? n tail <;> rfl

/-- A text falls into these tokens, in front of every text that does not draw out its last one. It takes one
step for each of them. -/
structure Lexes (cs : List Char) (ts : List Token) : Prop where
  enough : ts.length ≤ cs.length
  steps (n : Nat) {rest : List Char} : Stops rest →
    tokensWithin? (ts.length + n) (cs ++ rest) = (tokensWithin? n rest).map (ts ++ ·)

/-- A text stops the one in front of it, if what follows would. -/
def Halts (cs : List Char) : Prop := ∀ rest, Stops rest → Stops (cs ++ rest)

theorem halts_cons (h : isDigit c = false ∧ c ≠ '.' ∧ c ≠ 'e' ∧ c ≠ 'E') :
    Halts (c :: cs) := fun _ _ => stops_cons h

theorem halts_blank_append (hblank : ∀ c ∈ blanks, isSpace c = true) (h : Halts cs) : Halts (blanks ++ cs) := by
  cases blanks with
  | nil => exact h
  | cons c blanks =>
    have hspace := hblank c (by simp)
    simp only [isSpace, Bool.or_eq_true, decide_eq_true_eq] at hspace
    rw [List.cons_append]
    rcases hspace with ((rfl | rfl) | rfl) | rfl <;> exact halts_cons (by decide)

namespace Lexes

variable {xs ys : List Char} {ts us : List Token}

theorem nil : Lexes [] [] where
  enough := Nat.le_refl 0
  steps n rest _ := by
    rw [List.length_nil, Nat.zero_add]
    cases h : tokensWithin? n rest <;> simp [h]

theorem append (h : Lexes xs ts) (h' : Lexes ys us) (hys : Halts ys) : Lexes (xs ++ ys) (ts ++ us) where
  enough := by
    have hxs := h.enough
    have hys := h'.enough
    simp only [List.length_append]
    omega
  steps n rest hrest := by
    rw [List.length_append, Nat.add_assoc, List.append_assoc, h.steps _ (hys rest hrest), h'.steps n hrest,
      Option.map_map]
    congr 1
    funext found
    simp

/-- Blanks are passed over. -/
theorem blank_append (hblank : ∀ c ∈ blanks, isSpace c = true) (h : Lexes cs ts) :
    Lexes (blanks ++ cs) ts where
  enough := by
    rw [List.length_append]
    exact Nat.le_trans h.enough (Nat.le_add_left _ _)
  steps n rest hrest := by
    rw [← h.steps n hrest, List.append_assoc]
    cases ts.length + n with
    | zero => rfl
    | succ k => simp only [tokensWithin?, List.dropWhile_append_of_pos hblank]

/-- A token that nothing can draw out stands in front. -/
theorem cons_token {t : Token} (hc : isSpace c = false)
    (htoken : ∀ rest, token? (c :: xs ++ rest) = some (t, rest)) (h : Lexes ys ts) :
    Lexes (c :: xs ++ ys) (t :: ts) where
  enough := by
    have hys := h.enough
    simp only [List.length_append, List.length_cons]
    omega
  steps n rest hrest := by
    have htake := htoken (ys ++ rest)
    rw [List.cons_append] at htake
    rw [List.length_cons, Nat.add_right_comm, List.append_assoc, List.cons_append, tokensWithin?_cons hc, htake,
      Option.bind_some, h.steps n hrest, Option.map_map]
    rfl

theorem token {t : Token} (hc : isSpace c = false) (htoken : ∀ rest, token? (c :: xs ++ rest) = some (t, rest)) :
    Lexes (c :: xs) [t] := by
  have hnil := cons_token hc htoken nil
  rwa [List.append_nil] at hnil

section Char

variable {t : Token} (hc : isSpace c = false) (htoken : ∀ rest, token? (c :: rest) = some (t, rest))

include hc htoken

theorem cons_char (h : Lexes ys ts) : Lexes (c :: ys) (t :: ts) :=
  have htoken : ∀ rest, token? ([c] ++ rest) = some (t, rest) := htoken
  cons_token hc htoken h

theorem char : Lexes [c] [t] := cons_char hc htoken nil

end Char

theorem cons_quoted (text : String) (h : Lexes ys ts) : Lexes (quoted text ++ ys) (.string (some text) :: ts) :=
  cons_token rfl (token?_quoted text) h

theorem natural (n : Nat) : Lexes (Nat.toDigits 10 n) [.natural n] := by
  have hdigit : ∀ c ∈ Nat.toDigits 10 n, isSpace c = false := fun c hc => by
    have hc := Nat.isDigit_of_mem_toDigits (by decide) (by decide) hc
    have hne (c' : Char) (hc' : c'.isDigit = false) : c ≠ c' := by
      rintro rfl
      rw [hc] at hc'
      cases hc'
    simp [isSpace, hne ' ' rfl, hne '\n' rfl, hne '\t' rfl, hne '\r' rfl]
  refine ⟨List.length_pos_iff.2 Nat.toDigits_ne_nil, fun k rest hrest => ?_⟩
  have htoken := token?_toDigits n hrest
  cases hds : Nat.toDigits 10 n with
  | nil => exact absurd hds Nat.toDigits_ne_nil
  | cons d ds =>
    rw [hds, List.cons_append] at htoken
    rw [List.length_singleton, Nat.add_comm, List.cons_append, tokensWithin?_cons (hdigit d (by simp [hds])), htoken]
    rfl

/-- Parts with a comma in front of each, up to something that ends them. -/
theorem parts {α : Type} {l : List α} {text : α → List Char} {toks : α → List Token} {close : List Char}
    {ends : List Token} (hblank : ∀ c ∈ blanks, isSpace c = true) (hl : ∀ a ∈ l, Lexes (text a) (toks a))
    (hclose : Lexes close ends) (hhalts : Halts close) :
    Lexes (l.flatMap (fun a => ',' :: blanks ++ text a) ++ close) (l.flatMap (fun a => .comma :: toks a) ++ ends) ∧
      Halts (l.flatMap (fun a => ',' :: blanks ++ text a) ++ close) := by
  induction l with
  | nil => exact ⟨hclose, hhalts⟩
  | cons a l ih =>
    obtain ⟨hrest, hstop⟩ := ih fun a' ha => hl a' (by simp [ha])
    simp only [List.flatMap_cons, List.cons_append, List.append_assoc]
    refine ⟨?_, halts_cons (by decide)⟩
    refine cons_char rfl (fun _ => rfl) (blank_append hblank ?_)
    exact (hl a (by simp)).append hrest hstop

end Lexes

/-! ## Tokens of a value -/

/-- Values without unreadable parts, in which every number is written as digits. -/
inductive Plain : Json → Prop
  | null : Plain null
  | bool (b : Bool) : Plain (bool b)
  | natural (n : Nat) : Plain (natural n)
  | string (text : String) : Plain (string text)
  | array {items : List Json} : (∀ v ∈ items, Plain v) → Plain (array items)
  | object {members : List (String × Json)} : (∀ m ∈ members, Plain m.2) → Plain (object members)

mutual

/-- The tokens a plain value is written with. -/
def tokens : Json → List Token
  | null | unreadable => [.null]
  | bool b => [.bool b]
  | natural n => [.natural n]
  | number lexeme => [.number lexeme]
  | string text => [.string (some text)]
  | array [] => [.leftBracket, .rightBracket]
  | array (item :: items) => .leftBracket :: tokens item ++ itemTokens items ++ [.rightBracket]
  | object [] => [.leftBrace, .rightBrace]
  | object (member :: members) => .leftBrace :: memberTokens member ++ membersTokens members ++ [.rightBrace]

/-- The tokens of the items behind the first one. -/
def itemTokens : List Json → List Token
  | [] => []
  | item :: items => .comma :: tokens item ++ itemTokens items

def memberTokens : String × Json → List Token
  | (key, value) => .string (some key) :: .colon :: tokens value

/-- The tokens of the members behind the first one. -/
def membersTokens : List (String × Json) → List Token
  | [] => []
  | member :: members => .comma :: memberTokens member ++ membersTokens members

end

theorem itemTokens_eq (items : List Json) : itemTokens items = items.flatMap fun v => .comma :: tokens v := by
  induction items with
  | nil => rfl
  | cons item items ih => simp [itemTokens, ih]

theorem membersTokens_eq (members : List (String × Json)) :
    membersTokens members = members.flatMap fun m => .comma :: memberTokens m := by
  induction members with
  | nil => rfl
  | cons member members ih => simp [membersTokens, ih]

theorem renderItems_eq (layout : Layout) (depth : Nat) (items : List Json) :
    renderItems layout depth items = items.flatMap fun v => ',' :: layout.lineStart depth ++ render layout depth v := by
  induction items with
  | nil => rfl
  | cons item items ih => simp [renderItems, ih]

theorem renderMembers_eq (layout : Layout) (depth : Nat) (members : List (String × Json)) :
    renderMembers layout depth members =
      members.flatMap fun m => ',' :: layout.lineStart depth ++ renderMember layout depth m := by
  induction members with
  | nil => rfl
  | cons member members ih => simp [renderMembers, ih]

/-- Lines start with blanks, and a colon is followed by blanks. -/
structure Layout.Blank (layout : Layout) : Prop where
  lineStart (depth : Nat) : ∀ c ∈ layout.lineStart depth, isSpace c = true
  colon : ∃ blanks, layout.colon = ':' :: blanks ∧ ∀ c ∈ blanks, isSpace c = true

theorem Layout.blank_pretty : Layout.pretty.Blank where
  lineStart depth c hc := by
    rcases List.mem_cons.1 hc with rfl | hc
    · rfl
    · rw [(List.mem_replicate.1 hc).2]
      rfl
  colon := ⟨[' '], rfl, fun c hc => by rw [List.mem_singleton.1 hc]; rfl⟩

variable {layout : Layout} {v : Json}

/-- The text of a plain value falls into its tokens. -/
theorem lexes_render (hlayout : layout.Blank) (h : Plain v) (depth : Nat) :
    Lexes (render layout depth v) (tokens v) := by
  have hclose (close : Char) (t : Token) (depth : Nat) (hspace : isSpace close = false)
      (htoken : ∀ rest, token? (close :: rest) = some (t, rest))
      (hstop : isDigit close = false ∧ close ≠ '.' ∧ close ≠ 'e' ∧ close ≠ 'E') :
      Lexes (layout.lineStart depth ++ [close]) [t] ∧ Halts (layout.lineStart depth ++ [close]) :=
    ⟨(Lexes.char hspace htoken).blank_append (hlayout.lineStart depth),
      halts_blank_append (hlayout.lineStart depth) (halts_cons hstop)⟩
  induction h generalizing depth with
  | null => exact .token rfl fun _ => rfl
  | bool b => cases b <;> exact .token rfl fun _ => rfl
  | natural n => exact .natural n
  | string text =>
    have hquoted := Lexes.nil.cons_quoted text
    rwa [List.append_nil] at hquoted
  | @array items _ ih =>
    cases items with
    | nil => exact .cons_char rfl (fun _ => rfl) (.char rfl fun _ => rfl)
    | cons item items =>
      obtain ⟨hend, hhalts⟩ := hclose ']' .rightBracket depth rfl (fun _ => rfl) (by decide)
      obtain ⟨hrest, hstop⟩ := Lexes.parts (hlayout.lineStart (depth + 1))
        (fun v hv => ih v (List.mem_cons_of_mem _ hv) (depth + 1)) hend hhalts
      simp only [render, tokens, renderItems_eq, itemTokens_eq, List.cons_append, List.append_assoc] at hrest hstop ⊢
      refine .cons_char rfl (fun _ => rfl) (.blank_append (hlayout.lineStart _) ?_)
      exact (ih item (by simp) (depth + 1)).append hrest hstop
  | @object members _ ih =>
    obtain ⟨blanks, hcolon, hblanks⟩ := hlayout.colon
    have hmember (m : String × Json) (hm : m ∈ members) :
        Lexes (renderMember layout (depth + 1) m) (memberTokens m) := by
      obtain ⟨key, value⟩ := m
      simp only [renderMember, memberTokens, hcolon, List.append_assoc, List.cons_append]
      refine .cons_quoted key (.cons_char rfl (fun _ => rfl) (.blank_append hblanks ?_))
      exact ih _ hm (depth + 1)
    cases members with
    | nil => exact .cons_char rfl (fun _ => rfl) (.char rfl fun _ => rfl)
    | cons member members =>
      obtain ⟨hend, hhalts⟩ := hclose '\x7d' .rightBrace depth rfl (fun _ => rfl) (by decide)
      obtain ⟨hrest, hstop⟩ := Lexes.parts (hlayout.lineStart (depth + 1))
        (fun m hm => hmember m (List.mem_cons_of_mem _ hm)) hend hhalts
      simp only [render, tokens, renderMembers_eq, membersTokens_eq, List.cons_append, List.append_assoc]
        at hrest hstop ⊢
      refine .cons_char rfl (fun _ => rfl) (.blank_append (hlayout.lineStart _) ?_)
      exact (hmember member (by simp)).append hrest hstop

/-! ## Reading tokens -/

/-- The value is read from its tokens, in front of any others, if it is not nested too deep. -/
def ReadsTokens (v : Json) : Prop :=
  ∀ depth rest, (tokens v).length < depth → readValue? depth (tokens v ++ rest) = some (v, rest)

/-- No value starts with a closing bracket. -/
theorem tokens_ne_rightBracket (v : Json) (rest tail : List Token) : tokens v ++ rest ≠ .rightBracket :: tail := by
  cases v with
  | array items => cases items <;> simp [tokens]
  | object members => cases members <;> simp [tokens]
  | _ => simp [tokens]

theorem readItems?_tokens {items : List Json} {item : Json} (h : ∀ v ∈ item :: items, ReadsTokens v) (depth : Nat)
    (rest : List Token) (hdepth : (tokens item).length + (itemTokens items).length + 1 < depth) :
    readItems? depth (tokens item ++ (itemTokens items ++ .rightBracket :: rest)) = some (item :: items, rest) := by
  induction items generalizing item depth with
  | nil =>
    obtain ⟨d, rfl⟩ : ∃ d, depth = d + 1 := ⟨depth - 1, by omega⟩
    rw [readItems?, h item (by simp) d _ (by omega)]
    rfl
  | cons second items ih =>
    obtain ⟨d, rfl⟩ : ∃ d, depth = d + 1 := ⟨depth - 1, by omega⟩
    simp only [itemTokens, List.length_cons, List.length_append] at hdepth
    rw [readItems?, h item (by simp) d _ (by omega)]
    simp only [itemTokens, List.cons_append, List.append_assoc]
    rw [ih (fun v hv => h v (List.mem_cons_of_mem _ hv)) d (by omega)]
    rfl

theorem readMembers?_tokens {members : List (String × Json)} {member : String × Json}
    (h : ∀ m ∈ member :: members, ReadsTokens m.2) (depth : Nat) (rest : List Token)
    (hdepth : (memberTokens member).length + (membersTokens members).length + 1 < depth) :
    readMembers? depth (memberTokens member ++ (membersTokens members ++ .rightBrace :: rest)) =
      some ((member :: members).map fun m => (some m.1, m.2), rest) := by
  induction members generalizing member depth with
  | nil =>
    obtain ⟨d, rfl⟩ : ∃ d, depth = d + 1 := ⟨depth - 1, by omega⟩
    obtain ⟨key, value⟩ := member
    simp only [memberTokens, List.length_cons] at hdepth
    simp only [memberTokens, List.cons_append, readMembers?, h _ (List.mem_cons_self) d _ (by simp only; omega)]
    rfl
  | cons second members ih =>
    obtain ⟨d, rfl⟩ : ∃ d, depth = d + 1 := ⟨depth - 1, by omega⟩
    obtain ⟨key, value⟩ := member
    simp only [memberTokens, membersTokens, List.length_cons, List.length_append] at hdepth
    have hrest := ih (fun m (hm : m ∈ second :: members) => h m (List.mem_cons_of_mem _ hm)) d (by omega)
    simp only [memberTokens, List.cons_append, readMembers?, h _ (List.mem_cons_self) d _ (by simp only; omega)]
    simp only [membersTokens, List.cons_append, List.append_assoc, hrest]
    rfl

/-- Members that all have a text for their key make an object. -/
theorem ofMembers_some (members : List (String × Json)) :
    ofMembers (members.map fun m => (some m.1, m.2)) = object members := by
  have hall : (members.map fun m => (some m.1, m.2)).mapM (fun m => m.1.map (·, m.2)) = some members := by
    induction members with
    | nil => rfl
    | cons m members ih =>
      rw [List.map_cons, List.mapM_cons, ih]
      rfl
  rw [ofMembers, hall]

/-- The tokens of a plain value are read as the value. -/
theorem readValue?_tokens (h : Plain v) : ReadsTokens v := by
  intro depth rest hdepth
  induction h generalizing depth rest with
  | null | bool _ | natural _ | string _ =>
    obtain ⟨d, rfl⟩ : ∃ d, depth = d + 1 := ⟨depth - 1, by omega⟩
    rfl
  | @array items _ ih =>
    obtain ⟨d, rfl⟩ : ∃ d, depth = d + 1 := ⟨depth - 1, by omega⟩
    cases items with
    | nil => rfl
    | cons item items =>
      simp only [tokens, List.length_cons, List.length_append, List.length_nil] at hdepth
      have hitems := readItems?_tokens (fun v hv depth rest hd => ih v hv depth rest hd) d rest (by omega)
      simp only [tokens, List.cons_append, List.append_assoc, List.nil_append]
      rw [readValue?]
      · rw [hitems]
        rfl
      · exact fun tail => tokens_ne_rightBracket item _ tail
  | @object members _ ih =>
    obtain ⟨d, rfl⟩ : ∃ d, depth = d + 1 := ⟨depth - 1, by omega⟩
    cases members with
    | nil => rfl
    | cons member members =>
      simp only [tokens, List.length_cons, List.length_append, List.length_nil] at hdepth
      have hmembers := readMembers?_tokens (fun m hm depth rest hd => ih m hm depth rest hd) d rest (by omega)
      simp only [tokens, List.cons_append, List.append_assoc, List.nil_append]
      rw [readValue?]
      · simp only [hmembers, Option.map_some, ofMembers_some]
      · obtain ⟨key, value⟩ := member
        simp [memberTokens]

/-- A plain value is the value of its text. -/
theorem parse?_render (hlayout : layout.Blank) (h : Plain v) :
    parse? (String.ofList (render layout 0 v)) = some v := by
  have hlex := lexes_render hlayout h 0
  have htokens : tokens? (render layout 0 v) = some (tokens v) := by
    obtain ⟨n, hn⟩ : ∃ n, (render layout 0 v).length + 1 = (tokens v).length + (n + 1) :=
      ⟨(render layout 0 v).length - (tokens v).length, by have := hlex.enough; omega⟩
    have hsteps := hlex.steps (n + 1) stops_nil
    rw [List.append_nil] at hsteps
    rw [tokens?, hn, hsteps]
    simp [tokensWithin?]
  have hread := readValue?_tokens h _ [] (Nat.lt_succ_self _)
  rw [List.append_nil] at hread
  rw [parse?, String.toList_ofList, htokens]
  simp [hread]

end NodeGraph.Json
