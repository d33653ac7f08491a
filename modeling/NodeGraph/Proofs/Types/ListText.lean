import NodeGraph.Types.ListText

/-!
# The grammar of lists in text

A list is cut at its top-level commas by a scan that keeps count of open parentheses and of quoting. The grammar
knows neither counts nor states: balanced text is made of plain characters, of whole strings and of groups in
parentheses, and a comma is at top level if what stands before it is balanced. The scan ends where it began exactly
on balanced text (`scan_eq_some_iff`), it cuts a text into balanced pieces without a top-level comma
(`splitFrom_eq_some_iff`), and trimming keeps pieces so. Hence `splitList?` accepts the lists of the grammar and no
other text, and gives the items back from which a list is written (`splitList?_grammar`).
-/
namespace NodeGraph

/-! ## Trimming -/

namespace Text

variable {cs : List Char}

theorem trimLeft_eq_self (h : ∀ c ∈ cs.head?, isBlank c = false) : trimLeft cs = cs := by
  cases cs with
  | nil => rfl
  | cons c cs => exact List.dropWhile_cons_of_neg (by simp [h c rfl])

theorem trimRight_eq_self (h : ∀ c ∈ cs.getLast?, isBlank c = false) : trimRight cs = cs := by
  have hreverse : trimLeft cs.reverse = cs.reverse := trimLeft_eq_self (by rwa [List.head?_reverse])
  rw [trimRight, ← trimLeft, hreverse, List.reverse_reverse]

/-- Text with no blank at either end is trimmed. -/
theorem trim_eq_of_ends (hfirst : ∀ c ∈ cs.head?, isBlank c = false) (hlast : ∀ c ∈ cs.getLast?, isBlank c = false) :
    trim cs = cs := by
  rw [trim, trimLeft_eq_self hfirst, trimRight_eq_self hlast]

theorem head?_trimLeft (cs : List Char) : ∀ c ∈ (trimLeft cs).head?, isBlank c = false := by
  intro c hc
  have h := List.head?_dropWhile_not isBlank cs
  rw [trimLeft] at hc
  rwa [hc] at h

theorem getLast?_trimRight (cs : List Char) : ∀ c ∈ (trimRight cs).getLast?, isBlank c = false := by
  rw [trimRight, List.getLast?_reverse]
  exact head?_trimLeft cs.reverse

theorem trimRight_prefix (cs : List Char) : trimRight cs <+: cs := by
  have h := List.reverse_prefix.2 (List.dropWhile_suffix isBlank (l := cs.reverse))
  rwa [List.reverse_reverse] at h

theorem head?_trim (cs : List Char) : ∀ c ∈ (trim cs).head?, isBlank c = false := by
  intro c hc
  obtain ⟨rest, hrest⟩ := trimRight_prefix (trimLeft cs)
  refine head?_trimLeft cs c ?_
  rw [← hrest, List.head?_append, ← trim, hc]
  rfl

theorem trim_trim (cs : List Char) : trim (trim cs) = trim cs := trim_eq_of_ends (head?_trim cs) (getLast?_trimRight _)

/-- What trimming takes away is blank. -/
theorem exists_eq_append_trim (cs : List Char) : ∃ before after, cs = before ++ (trim cs ++ after) ∧
    (∀ c ∈ before, isBlank c = true) ∧ ∀ c ∈ after, isBlank c = true := by
  have htake {cs : List Char} : ∀ c ∈ cs.takeWhile isBlank, isBlank c = true := fun c hc =>
    List.all_eq_true.1 List.all_takeWhile c hc
  refine ⟨cs.takeWhile isBlank, ((trimLeft cs).reverse.takeWhile isBlank).reverse, ?_, htake, fun c hc =>
    htake c (List.mem_reverse.1 hc)⟩
  rw [trim, trimRight, ← List.reverse_append, List.takeWhile_append_dropWhile, List.reverse_reverse, trimLeft,
    List.takeWhile_append_dropWhile]

end Text

namespace ListText

open Text

/-! ## Balanced text -/

variable {next : Scan}

/-- The rest of a string behind its opening quote. A backslash escapes the next character. -/
inductive Quoted : List Char → Prop
  | close : Quoted ['"']
  | plain {c cs} (hquote : c ≠ '"') (hescape : c ≠ '\\') (hrest : Quoted cs) : Quoted (c :: cs)
  | escaped {c cs} (hrest : Quoted cs) : Quoted ('\\' :: c :: cs)

/-- Text whose strings and parentheses are closed. -/
inductive Balanced : List Char → Prop
  | nil : Balanced []
  | plain {c cs} (hquote : c ≠ '"') (hopen : c ≠ '(') (hclose : c ≠ ')') (hrest : Balanced cs) : Balanced (c :: cs)
  | string {q cs} (hq : Quoted q) (hrest : Balanced cs) : Balanced ('"' :: (q ++ cs))
  | group {inner cs} (hinner : Balanced inner) (hrest : Balanced cs) : Balanced ('(' :: (inner ++ ')' :: cs))

/-- A comma outside all strings and groups. -/
def HasTopComma (cs : List Char) : Prop := ∃ before after, cs = before ++ ',' :: after ∧ Balanced before

/-- What can stand between the commas of a list. -/
structure Piece (cs : List Char) : Prop where
  balanced : Balanced cs
  uncut : ¬ HasTopComma cs

/-- A piece without blanks around it. -/
structure Item (cs : List Char) : Prop extends Piece cs where
  trimmed : trim cs = cs

/-! ## The scan -/

/-- The state behind a text. -/
def scan (s : Scan) (cs : List Char) : Option Scan := cs.foldlM Scan.step? s

section Scanning

variable {s s' : Scan} {c : Char} {cs cs' q : List Char} {depth : Nat}

theorem scan_nil : scan s [] = some s := rfl

theorem scan_cons : scan s (c :: cs) = (s.step? c).bind (scan · cs) := rfl

theorem scan_append : scan s (cs ++ cs') = (scan s cs).bind (scan · cs') := List.foldlM_append

theorem Scan.isClosed_iff : s.isClosed = true ↔ s = {} := by
  cases s
  simp [isClosed]

theorem Scan.step?_plain (hquote : c ≠ '"') (hopen : c ≠ '(') (hclose : c ≠ ')') :
    step? ⟨depth, .outside⟩ c = some ⟨depth, .outside⟩ := by
  simp [step?, hquote, hopen, hclose]

theorem scan_quoted (h : Quoted q) : scan ⟨depth, .inside⟩ q = some ⟨depth, .outside⟩ := by
  induction h with
  | close => rfl
  | plain hquote hescape _ ih => simpa [scan_cons, Scan.step?, hquote, hescape] using ih
  | escaped _ ih => exact ih

/-- Balanced text leaves the scan where it was. -/
theorem scan_balanced (h : Balanced cs) : scan ⟨depth, .outside⟩ cs = some ⟨depth, .outside⟩ := by
  induction h generalizing depth with
  | nil => rfl
  | plain hquote hopen hclose _ ih =>
    rw [scan_cons, Scan.step?_plain hquote hopen hclose]
    exact ih
  | string hq _ ih =>
    have hopened : Scan.step? ⟨depth, .outside⟩ '"' = some ⟨depth, .inside⟩ := rfl
    rw [scan_cons, hopened, Option.bind_some, scan_append, scan_quoted hq]
    exact ih
  | group _ _ ihinner ihrest =>
    have hopened : Scan.step? ⟨depth, .outside⟩ '(' = some ⟨depth + 1, .outside⟩ := rfl
    have hclosed : Scan.step? ⟨depth + 1, .outside⟩ ')' = some ⟨depth, .outside⟩ := rfl
    rw [scan_cons, hopened, Option.bind_some, scan_append, ihinner, Option.bind_some, scan_cons, hclosed]
    exact ihrest

/-- Text that closes as many groups as are open, and is balanced otherwise. -/
inductive Closing : Nat → List Char → Prop
  | done {cs : List Char} (h : Balanced cs) : Closing 0 cs
  | close {depth : Nat} {inner cs : List Char} (hinner : Balanced inner) (hrest : Closing depth cs) :
    Closing (depth + 1) (inner ++ ')' :: cs)

namespace Closing

theorem plain (hquote : c ≠ '"') (hopen : c ≠ '(') (hclose : c ≠ ')') (h : Closing depth cs) :
    Closing depth (c :: cs) := by
  cases h with
  | done h => exact .done (.plain hquote hopen hclose h)
  | close hinner hrest => exact .close (.plain hquote hopen hclose hinner) hrest

theorem string (hq : Quoted q) (h : Closing depth cs) : Closing depth ('"' :: (q ++ cs)) := by
  cases h with
  | done h => exact .done (.string hq h)
  | close hinner hrest =>
    rw [← List.append_assoc, ← List.cons_append]
    exact .close (.string hq hinner) hrest

theorem group (h : Closing (depth + 1) cs) : Closing depth ('(' :: cs) := by
  cases h with
  | close hinner hrest =>
    cases hrest with
    | done hrest => exact .done (.group hinner hrest)
    | @close depth inner' cs' hinner' hrest =>
      have h := Closing.close (.group hinner hinner') hrest
      rwa [List.cons_append, List.append_assoc, List.cons_append] at h

end Closing

/-- What is left to read from a state of the scan, if everything is closed at the end. -/
def Scan.Leaves (s : Scan) (cs : List Char) : Prop :=
  match s.quoting with
  | .outside => Closing s.depth cs
  | .inside => ∃ q rest, cs = q ++ rest ∧ Quoted q ∧ Closing s.depth rest
  | .escape => ∃ c q rest, cs = c :: (q ++ rest) ∧ Quoted q ∧ Closing s.depth rest

theorem Scan.Leaves.of_step (hstep : s.step? c = some next) (h : next.Leaves cs) : s.Leaves (c :: cs) := by
  obtain ⟨depth, quoting⟩ := s
  cases quoting with
  | escape =>
    cases hstep
    obtain ⟨q, rest, rfl, hq, hrest⟩ := h
    exact ⟨c, q, rest, rfl, hq, hrest⟩
  | inside =>
    by_cases hescape : c = '\\'
    · subst hescape
      cases hstep
      obtain ⟨c', q, rest, rfl, hq, hrest⟩ := h
      exact ⟨_, rest, rfl, .escaped hq, hrest⟩
    by_cases hquote : c = '"'
    · subst hquote
      cases hstep
      exact ⟨['"'], cs, rfl, .close, h⟩
    · simp only [step?, if_neg hescape, if_neg hquote, Option.some.injEq] at hstep
      subst hstep
      obtain ⟨q, rest, rfl, hq, hrest⟩ := h
      exact ⟨c :: q, rest, rfl, .plain hquote hescape hq, hrest⟩
  | outside =>
    by_cases hquote : c = '"'
    · subst hquote
      cases hstep
      obtain ⟨q, rest, rfl, hq, hrest⟩ := h
      exact Closing.string hq hrest
    by_cases hopen : c = '('
    · subst hopen
      cases hstep
      exact Closing.group h
    by_cases hclose : c = ')'
    · subst hclose
      cases depth with
      | zero => cases hstep
      | succ depth =>
        cases hstep
        exact Closing.close .nil h
    · rw [step?_plain hquote hopen hclose] at hstep
      cases hstep
      exact Closing.plain hquote hopen hclose h

theorem leaves_of_scan (h : scan s cs = some {}) : s.Leaves cs := by
  induction cs generalizing s with
  | nil =>
    cases h
    exact Closing.done .nil
  | cons c cs ih =>
    obtain ⟨next, hnext, h⟩ := Option.bind_eq_some_iff.1 h
    exact .of_step hnext (ih h)

/-- The scan ends where it began exactly on balanced text. -/
theorem scan_eq_some_iff : scan {} cs = some {} ↔ Balanced cs := by
  constructor
  · intro h
    cases leaves_of_scan h with
    | done h => exact h
  · exact scan_balanced

end Scanning

/-! ## Cutting -/

section Cutting

variable {s : Scan} {c : Char} {cs rest item : List Char} {pieces items : List (List Char)}

/-- On the way through a text from a state, no comma separates two items. -/
def Uncut (s : Scan) (cs : List Char) : Prop := ∀ before after, cs = before ++ ',' :: after → scan s before ≠ some {}

theorem uncut_nil : Uncut s [] := fun before after h => by simp at h

theorem uncut_cons (hnext : s.step? c = some next) :
    Uncut s (c :: cs) ↔ s.isSeparator c = false ∧ Uncut next cs := by
  constructor
  · intro h
    refine ⟨Bool.eq_false_iff.2 fun hsep => ?_, fun before after hcs hscan => ?_⟩
    · obtain ⟨rfl, hclosed⟩ : c = ',' ∧ s.isClosed = true := by simpa [Scan.isSeparator] using hsep
      exact h [] cs rfl (by rw [scan_nil, Scan.isClosed_iff.1 hclosed])
    · exact h (c :: before) after (by rw [hcs, List.cons_append]) (by rw [scan_cons, hnext]; exact hscan)
  · rintro ⟨hsep, hrest⟩ before after hcs hscan
    cases before with
    | nil =>
      obtain ⟨rfl, -⟩ := List.cons.inj hcs
      cases hscan
      cases hsep
    | cons c' before =>
      obtain ⟨rfl, rfl⟩ := List.cons.inj hcs
      rw [scan_cons, hnext] at hscan
      exact hrest before after rfl hscan

theorem uncut_iff : Uncut {} cs ↔ ¬ HasTopComma cs := by
  constructor
  · rintro h ⟨before, after, hcs, hbefore⟩
    exact h before after hcs (scan_balanced hbefore)
  · intro h before after hcs hscan
    exact h ⟨before, after, hcs, scan_eq_some_iff.1 hscan⟩

theorem piece_iff : Piece cs ↔ scan {} cs = some {} ∧ Uncut {} cs := by
  rw [scan_eq_some_iff, uncut_iff]
  exact ⟨fun h => ⟨h.balanced, h.uncut⟩, fun h => ⟨h.1, h.2⟩⟩

theorem splitFrom_cons (hnext : s.step? c = some next) :
    splitFrom s (c :: cs) =
      if s.isSeparator c then (splitFrom next cs).map ([] :: ·) else (splitFrom next cs).map (consHead c) := by
  rw [splitFrom, hnext]

theorem splitFrom_isSome : (splitFrom s cs).isSome = true ↔ scan s cs = some {} := by
  induction cs generalizing s with
  | nil =>
    rw [splitFrom, scan_nil, Option.some.injEq, ← Scan.isClosed_iff]
    cases s.isClosed <;> simp
  | cons c cs ih =>
    cases hnext : s.step? c with
    | none => simp [splitFrom, scan_cons, hnext]
    | some next =>
      rw [splitFrom_cons hnext, scan_cons, hnext, Option.bind_some, ← ih]
      split <;> rw [Option.isSome_map]

/-- A piece at the end of a text is its last. -/
theorem splitFrom_last (hscan : scan s cs = some {}) (hcut : Uncut s cs) : splitFrom s cs = some [cs] := by
  induction cs generalizing s with
  | nil =>
    cases hscan
    rfl
  | cons c cs ih =>
    obtain ⟨next, hnext, hscan⟩ := Option.bind_eq_some_iff.1 hscan
    obtain ⟨hsep, hcut⟩ := (uncut_cons hnext).1 hcut
    rw [splitFrom_cons hnext, hsep, ih hscan hcut]
    rfl

/-- A piece in front of a comma is cut off. -/
theorem splitFrom_append (hscan : scan s cs = some {}) (hcut : Uncut s cs) :
    splitFrom s (cs ++ ',' :: rest) = (splitFrom {} rest).map (cs :: ·) := by
  induction cs generalizing s with
  | nil =>
    cases hscan
    rfl
  | cons c cs ih =>
    obtain ⟨next, hnext, hscan⟩ := Option.bind_eq_some_iff.1 hscan
    obtain ⟨hsep, hcut⟩ := (uncut_cons hnext).1 hcut
    rw [List.cons_append, splitFrom_cons hnext, hsep, ih hscan hcut, if_neg Bool.false_ne_true, Option.map_map]
    rfl

theorem splitFrom_intercalate (hne : pieces ≠ []) (h : ∀ piece ∈ pieces, Piece piece) :
    splitFrom {} ([','].intercalate pieces) = some pieces := by
  induction pieces with
  | nil => exact absurd rfl hne
  | cons piece pieces ih =>
    obtain ⟨hscan, hcut⟩ := piece_iff.1 (h piece (by simp))
    cases pieces with
    | nil =>
      rw [List.intercalate_singleton]
      exact splitFrom_last hscan hcut
    | cons piece' pieces =>
      rw [List.intercalate_cons_cons, List.append_assoc, List.singleton_append, splitFrom_append hscan hcut,
        ih (by simp) fun p hp => h p (by simp [hp])]
      rfl

/-- The texts that are cut from a state: the first closes what is open there, and the others are pieces. -/
theorem pieces_of_splitFrom (h : splitFrom s cs = some pieces) : ∃ first others, pieces = first :: others ∧
    cs = [','].intercalate pieces ∧ scan s first = some {} ∧ Uncut s first ∧ ∀ piece ∈ others, Piece piece := by
  induction cs generalizing s pieces with
  | nil =>
    rw [splitFrom] at h
    split at h
    · next hclosed =>
      cases h
      exact ⟨[], [], rfl, rfl, by rw [scan_nil, Scan.isClosed_iff.1 hclosed], uncut_nil, by simp⟩
    · cases h
  | cons c cs ih =>
    cases hnext : s.step? c with
    | none => simp [splitFrom, hnext] at h
    | some next =>
      rw [splitFrom_cons hnext] at h
      split at h
      · next hsep =>
        obtain ⟨pieces, hpieces, rfl⟩ := Option.map_eq_some_iff.1 h
        obtain ⟨first, others, rfl, hcs, hscan, hcut, hothers⟩ := ih hpieces
        obtain ⟨rfl, hclosed⟩ : c = ',' ∧ s.isClosed = true := by simpa [Scan.isSeparator] using hsep
        cases Scan.isClosed_iff.1 hclosed
        cases hnext
        refine ⟨[], _, rfl, ?_, rfl, uncut_nil, List.forall_mem_cons.2 ⟨piece_iff.2 ⟨hscan, hcut⟩, hothers⟩⟩
        rw [List.intercalate_cons_cons, ← hcs]
        rfl
      · next hsep =>
        obtain ⟨pieces, hpieces, rfl⟩ := Option.map_eq_some_iff.1 h
        obtain ⟨first, others, rfl, hcs, hscan, hcut, hothers⟩ := ih hpieces
        refine ⟨c :: first, others, rfl, ?_, by rw [scan_cons, hnext]; exact hscan,
          (uncut_cons hnext).2 ⟨Bool.eq_false_iff.2 hsep, hcut⟩, hothers⟩
        rw [hcs]
        cases others with
        | nil => rfl
        | cons => rfl

/-- A text is cut into pieces exactly where it is written from them. -/
theorem splitFrom_eq_some_iff : splitFrom {} cs = some pieces ↔
    pieces ≠ [] ∧ cs = [','].intercalate pieces ∧ ∀ piece ∈ pieces, Piece piece := by
  constructor
  · intro h
    obtain ⟨first, others, rfl, hcs, hscan, hcut, hothers⟩ := pieces_of_splitFrom h
    exact ⟨by simp, hcs, List.forall_mem_cons.2 ⟨piece_iff.2 ⟨hscan, hcut⟩, hothers⟩⟩
  · rintro ⟨hne, rfl, h⟩
    exact splitFrom_intercalate hne h

end Cutting

/-! ## Blanks around pieces -/

section Blanks

variable {s : Scan} {c : Char} {cs blanks before after : List Char}

theorem ne_of_isBlank (h : isBlank c = true) : c ≠ '"' ∧ c ≠ '(' ∧ c ≠ ')' := by
  refine ⟨?_, ?_, ?_⟩ <;>
  · rintro rfl
    exact absurd h (by decide)

theorem Balanced.of_blanks (h : ∀ c ∈ blanks, isBlank c = true) : Balanced blanks := by
  induction blanks with
  | nil => exact .nil
  | cons c blanks ih =>
    obtain ⟨hquote, hopen, hclose⟩ := ne_of_isBlank (h c (by simp))
    exact .plain hquote hopen hclose (ih fun c' hc' => h c' (by simp [hc']))

theorem Balanced.append (h : Balanced before) (h' : Balanced after) : Balanced (before ++ after) := by
  rw [← scan_eq_some_iff, scan_append, scan_balanced h]
  exact scan_balanced h'

/-- No blank closes anything. -/
theorem eq_of_scan_blanks (h : ∀ c ∈ blanks, isBlank c = true) (hscan : scan s blanks = some {}) : s = {} := by
  induction blanks generalizing s with
  | nil =>
    cases hscan
    rfl
  | cons c blanks ih =>
    obtain ⟨next, hnext, hscan⟩ := Option.bind_eq_some_iff.1 hscan
    cases ih (fun c' hc' => h c' (by simp [hc'])) hscan
    obtain ⟨hquote, hopen, hclose⟩ := ne_of_isBlank (h c (by simp))
    obtain ⟨depth, quoting⟩ := s
    cases quoting with
    | outside =>
      rw [Scan.step?_plain hquote hopen hclose] at hnext
      cases hnext
      rfl
    | inside =>
      simp only [Scan.step?, if_neg hquote] at hnext
      split at hnext <;> cases hnext
    | escape => cases hnext

theorem Balanced.of_append_blanks (hafter : ∀ c ∈ after, isBlank c = true) (h : Balanced (cs ++ after)) :
    Balanced cs := by
  rw [← scan_eq_some_iff, scan_append] at h
  obtain ⟨s, hs, h⟩ := Option.bind_eq_some_iff.1 h
  cases eq_of_scan_blanks hafter h
  exact scan_eq_some_iff.1 hs

theorem Balanced.of_blanks_append (hbefore : ∀ c ∈ before, isBlank c = true) (h : Balanced (before ++ cs)) :
    Balanced cs := by
  rw [← scan_eq_some_iff, scan_append, scan_balanced (.of_blanks hbefore)] at h
  exact scan_eq_some_iff.1 h

/-- A piece without the blanks around it is an item. -/
theorem Piece.trim (h : Piece cs) : Item (trim cs) := by
  obtain ⟨before, after, hcs, hbefore, hafter⟩ := exists_eq_append_trim cs
  refine ⟨⟨?_, ?_⟩, trim_trim cs⟩
  · have hbalanced := h.balanced
    rw [hcs] at hbalanced
    exact .of_append_blanks hafter (.of_blanks_append hbefore hbalanced)
  · rintro ⟨front, back, hcut, hfront⟩
    refine h.uncut ⟨before ++ front, back ++ after, ?_, (Balanced.of_blanks hbefore).append hfront⟩
    rw [hcs, hcut]
    simp

end Blanks

/-! ## Building pieces -/

section Building

variable {c : Char} {cs front inner : List Char} {pieces : List (List Char)}

theorem Piece.nil : Piece [] := piece_iff.2 ⟨rfl, uncut_nil⟩

/-- A character that neither opens, closes nor separates anything. -/
def Plain (c : Char) : Prop := c ≠ '"' ∧ c ≠ '(' ∧ c ≠ ')' ∧ c ≠ ','

instance : DecidablePred Plain := fun c => inferInstanceAs (Decidable (c ≠ '"' ∧ c ≠ '(' ∧ c ≠ ')' ∧ c ≠ ','))

theorem Piece.cons (hc : Plain c) (h : Piece cs) : Piece (c :: cs) := by
  obtain ⟨hquote, hopen, hclose, hcomma⟩ := hc
  obtain ⟨hscan, hcut⟩ := piece_iff.1 h
  have hstep : Scan.step? {} c = some {} := Scan.step?_plain hquote hopen hclose
  refine piece_iff.2 ⟨by rw [scan_cons, hstep]; exact hscan, (uncut_cons hstep).2 ⟨?_, hcut⟩⟩
  simp [Scan.isSeparator, hcomma]

theorem Piece.append (hfront : ∀ c ∈ front, Plain c) (h : Piece cs) : Piece (front ++ cs) := by
  induction front with
  | nil => exact h
  | cons c front ih => exact (ih fun c' hc' => hfront c' (by simp [hc'])).cons (hfront c (by simp))

theorem Item.of_plain (h : ∀ c ∈ cs, Plain c) (htrimmed : trim cs = cs) : Item cs :=
  ⟨by simpa using Piece.append h .nil, htrimmed⟩

theorem Balanced.intercalate (h : ∀ piece ∈ pieces, Piece piece) : Balanced ([','].intercalate pieces) := by
  by_cases hne : pieces = []
  · rw [hne]
    exact .nil
  · exact scan_eq_some_iff.1 (splitFrom_isSome.1 (by rw [splitFrom_intercalate hne h]; rfl))

/-- One more open parenthesis changes nothing else. -/
theorem scan_deeper {s s' : Scan} (h : scan s cs = some s') :
    scan { s with depth := s.depth + 1 } cs = some { s' with depth := s'.depth + 1 } := by
  induction cs generalizing s with
  | nil =>
    cases h
    rfl
  | cons c cs ih =>
    obtain ⟨next, hnext, h⟩ := Option.bind_eq_some_iff.1 h
    have hstep : Scan.step? { s with depth := s.depth + 1 } c = some { next with depth := next.depth + 1 } := by
      obtain ⟨depth, quoting⟩ := s
      cases quoting with
      | escape =>
        cases hnext
        rfl
      | inside =>
        simp only [Scan.step?] at hnext ⊢
        split at hnext
        · next hc => cases hnext; rw [if_pos hc]
        · next hc =>
          split at hnext
          · next hc' => cases hnext; rw [if_neg hc, if_pos hc']
          · next hc' => cases hnext; rw [if_neg hc, if_neg hc']
      | outside =>
        by_cases hquote : c = '"'
        · subst hquote; cases hnext; rfl
        by_cases hopen : c = '('
        · subst hopen; cases hnext; rfl
        by_cases hclose : c = ')'
        · subst hclose
          cases depth with
          | zero => cases hnext
          | succ depth => cases hnext; rfl
        · rw [Scan.step?_plain hquote hopen hclose] at hnext ⊢
          cases hnext
          rfl
    rw [scan_cons, hstep]
    exact ih h

/-- A group has no comma at top level. -/
theorem Piece.group (h : Balanced inner) : Piece ('(' :: (inner ++ [')'])) := by
  refine ⟨.group h .nil, ?_⟩
  rintro ⟨before, after, hcut, hbefore⟩
  cases before with
  | nil => cases hcut
  | cons c before =>
    obtain ⟨rfl, htail⟩ := List.cons.inj hcut
    -- The comma is inside the parentheses, where at least the outer one is open.
    obtain ⟨rest, rfl⟩ : ∃ rest, inner = before ++ rest := by
      rcases List.append_eq_append_iff.1 htail with ⟨rest, hbefore, hclose⟩ | ⟨rest, hinner, -⟩
      · cases rest with
        | nil => exact ⟨[], by simpa using hbefore.symm⟩
        | cons c rest => simp at hclose
      · exact ⟨rest, hinner⟩
    have hscan := scan_eq_some_iff.2 h
    rw [scan_append] at hscan
    obtain ⟨s, hs, -⟩ := Option.bind_eq_some_iff.1 hscan
    have hopen : scan ⟨1, .outside⟩ before = some {} := scan_eq_some_iff.2 hbefore
    cases hopen.symm.trans (scan_deeper hs)

/-- Text that opens nothing and is followed by what makes it balanced closes nothing either. -/
theorem Balanced.of_front (hopen : '(' ∉ front) (hquote : '"' ∉ front) (h : Balanced (front ++ cs)) :
    Balanced front := by
  have hscan := scan_eq_some_iff.2 h
  clear h
  induction front with
  | nil => exact .nil
  | cons c front ih =>
    rw [List.mem_cons, not_or] at hopen hquote
    by_cases hclose : c = ')'
    · subst hclose
      cases hscan
    · have hstep : Scan.step? {} c = some {} := Scan.step?_plain (Ne.symm hquote.1) (Ne.symm hopen.1) hclose
      rw [List.cons_append, scan_cons, hstep] at hscan
      exact .plain (Ne.symm hquote.1) (Ne.symm hopen.1) hclose (ih hopen.2 hquote.2 hscan)

theorem Piece.of_append (hfront : Balanced front) (h : Piece (front ++ cs)) : Piece cs := by
  refine ⟨?_, ?_⟩
  · have hscan := scan_eq_some_iff.2 h.balanced
    rw [scan_append, scan_eq_some_iff.2 hfront] at hscan
    exact scan_eq_some_iff.1 hscan
  · rintro ⟨before, after, rfl, hbefore⟩
    exact h.uncut ⟨front ++ before, after, by simp, hfront.append hbefore⟩

end Building

/-! ## Lists -/

variable {text inner : List Char} {items : List (List Char)}

theorem inner?_eq_some_iff : inner? text = some inner ↔ text = '(' :: (inner ++ [')']) := by
  constructor
  · intro h
    unfold inner? at h
    split at h
    · next rest =>
      split at h
      · next hlast =>
        obtain ⟨inner', rfl⟩ := List.getLast?_eq_some_iff.1 hlast
        cases h
        rw [List.dropLast_concat]
      · cases h
    · cases h
  · rintro rfl
    simp [inner?]

theorem trim_parenthesized (inner : List Char) : trim ('(' :: (inner ++ [')'])) = '(' :: (inner ++ [')']) := by
  refine trim_eq_of_ends (fun c hc => ?_) fun c hc => ?_
  · cases hc
    decide
  · rw [← List.cons_append, List.getLast?_append] at hc
    cases hc
    decide

/-- The items of a text in parentheses. -/
theorem splitList?_parenthesized (inner : List Char) : splitList? ('(' :: (inner ++ [')'])) =
    if (trim inner).isEmpty then some [] else (splitFrom {} inner).map (·.map trim) := by
  have hinner : inner? ('(' :: (inner ++ [')'])) = some inner := inner?_eq_some_iff.2 rfl
  have hsplit : (splitFrom {} inner).map (·.map trim) =
      (splitFrom {} inner).bind fun pieces => some (pieces.map trim) := Option.map_eq_bind
  unfold splitList?
  rw [trim_parenthesized, hsplit]
  dsimp only
  rw [hinner]
  rfl

theorem splitList?_of_trim_eq_nil (h : trim text = []) : splitList? text = some [] := by
  unfold splitList?
  rw [h]
  rfl

theorem splitList?_trim (text : List Char) : splitList? (trim text) = splitList? text := by
  unfold splitList?
  rw [trim_trim]

/-- A text that is a list is blank or stands in parentheses. -/
theorem parenthesized_of_splitList? (h : splitList? text = some items) :
    trim text = [] ∨ ∃ inner, trim text = '(' :: (inner ++ [')']) := by
  unfold splitList? at h
  dsimp only at h
  split at h
  · next hempty => exact .inl (List.isEmpty_iff.1 hempty)
  · obtain ⟨inner, hinner, -⟩ := Option.bind_eq_some_iff.1 h
    exact .inr ⟨inner, inner?_eq_some_iff.1 hinner⟩

theorem splitList?_isSome_of_balanced (h : Balanced inner) : (splitList? ('(' :: (inner ++ [')']))).isSome = true := by
  rw [splitList?_parenthesized]
  split
  · rfl
  · rw [Option.isSome_map, splitFrom_isSome]
    exact scan_balanced h

theorem Balanced.of_splitList? (h : splitList? ('(' :: (inner ++ [')'])) = some items) : Balanced inner := by
  rw [splitList?_parenthesized] at h
  split at h
  · next hempty =>
    obtain ⟨before, after, hinner, hbefore, hafter⟩ := exists_eq_append_trim inner
    rw [hinner, List.isEmpty_iff.1 hempty]
    exact (Balanced.of_blanks hbefore).append (.append .nil (.of_blanks hafter))
  · obtain ⟨pieces, hpieces, -⟩ := Option.map_eq_some_iff.1 h
    exact scan_eq_some_iff.1 (splitFrom_isSome.1 (by rw [hpieces]; rfl))

/-- The lists of the grammar are accepted and nothing else. -/
theorem splitList?_isSome_iff : (splitList? text).isSome = true ↔
    trim text = [] ∨ ∃ inner, trim text = '(' :: (inner ++ [')']) ∧ Balanced inner := by
  rw [← splitList?_trim]
  constructor
  · intro h
    obtain ⟨items, hitems⟩ := Option.isSome_iff_exists.1 h
    rcases parenthesized_of_splitList? hitems with hblank | ⟨inner, hinner⟩
    · exact .inl (by rwa [trim_trim] at hblank)
    · rw [trim_trim] at hinner
      rw [hinner] at hitems
      exact .inr ⟨inner, hinner, .of_splitList? hitems⟩
  · rintro (hblank | ⟨inner, hinner, hbalanced⟩)
    · rw [hblank]
      rfl
    · rw [hinner]
      exact splitList?_isSome_of_balanced hbalanced

/-- The text between the parentheses of a list of items is blank only if there is at most one item, and that is
empty. -/
theorem eq_nil_of_trim_intercalate (h : ∀ item ∈ items, trim item = item)
    (hblank : trim ([','].intercalate items) = []) : items = [] ∨ items = [[]] := by
  obtain ⟨before, after, hcs, hbefore, hafter⟩ := exists_eq_append_trim ([','].intercalate items)
  have hall : ∀ c ∈ [','].intercalate items, isBlank c = true := by
    intro c hc
    rw [hcs, hblank, List.nil_append, List.mem_append] at hc
    exact hc.elim (hbefore c) (hafter c)
  cases items with
  | nil => exact .inl rfl
  | cons item items =>
    cases items with
    | nil =>
      rw [List.intercalate_singleton, h item (by simp)] at hblank
      exact .inr (by rw [hblank])
    | cons item' items =>
      rw [List.intercalate_cons_cons] at hall
      exact absurd (hall ',' (by simp)) (by decide)

/-- Items that are written as a list are read back. -/
theorem splitList?_intercalate (hne : items ≠ []) (hempty : items ≠ [[]]) (h : ∀ item ∈ items, Item item) :
    splitList? ('(' :: ([','].intercalate items ++ [')'])) = some items := by
  have htrimmed : ∀ item ∈ items, trim item = item := fun item hitem => (h item hitem).trimmed
  rw [splitList?_parenthesized, splitFrom_intercalate hne fun item hitem => (h item hitem).toPiece]
  split
  · next hblank =>
    exact absurd (eq_nil_of_trim_intercalate htrimmed (List.isEmpty_iff.1 hblank)) (by simp [hne, hempty])
  · rw [Option.map_some, List.map_congr_left htrimmed, List.map_id']

/-- What a list is read as: the pieces between its top-level commas, without the blanks around them. -/
theorem pieces_of_splitList? (h : splitList? text = some items) (hne : items ≠ []) :
    ∃ pieces, trim text = '(' :: ([','].intercalate pieces ++ [')']) ∧ (∀ piece ∈ pieces, Piece piece) ∧
      items = pieces.map trim ∧ items ≠ [[]] := by
  rw [← splitList?_trim] at h
  rcases parenthesized_of_splitList? h with hblank | ⟨inner, hinner⟩
  · rw [splitList?_of_trim_eq_nil hblank] at h
    cases h
    exact absurd rfl hne
  rw [trim_trim] at hinner
  rw [hinner, splitList?_parenthesized] at h
  split at h
  · cases h
    exact absurd rfl hne
  · next hblank =>
    obtain ⟨pieces, hpieces, rfl⟩ := Option.map_eq_some_iff.1 h
    obtain ⟨-, rfl, hall⟩ := splitFrom_eq_some_iff.1 hpieces
    refine ⟨pieces, hinner, hall, rfl, fun hempty => hblank ?_⟩
    obtain ⟨piece, rfl, hpiece⟩ := List.map_eq_singleton_iff.1 hempty
    rw [List.intercalate_singleton, hpiece]
    rfl

theorem items_of_splitList? (h : splitList? text = some items) : ∀ item ∈ items, Item item := by
  intro item hitem
  obtain ⟨pieces, -, hpieces, rfl, -⟩ := pieces_of_splitList? h (List.ne_nil_of_mem hitem)
  obtain ⟨piece, hpiece, rfl⟩ := List.mem_map.1 hitem
  exact (hpieces piece hpiece).trim

/-! ## Assignments -/

theorem mem_trim {c : Char} {cs : List Char} (h : c ∈ cs) (hc : isBlank c = false) : c ∈ trim cs := by
  obtain ⟨before, after, hcs, hbefore, hafter⟩ := exists_eq_append_trim cs
  rw [hcs, List.mem_append, List.mem_append] at h
  rcases h with h | h | h
  · exact absurd (hbefore c h) (by simp [hc])
  · exact h
  · exact absurd (hafter c h) (by simp [hc])

/-- An assignment is cut at its first equals sign. -/
theorem splitAssignment?_eq_some_iff {item key value : List Char} : splitAssignment? item = some (key, value) ↔
    ∃ left right, item = left ++ '=' :: right ∧ '=' ∉ left ∧ key = trim left ∧ value = trim right ∧ key ≠ [] ∧
      '(' ∉ key ∧ '"' ∉ key := by
  constructor
  · intro h
    unfold splitAssignment? at h
    split at h
    · cases h
    · next c right hright =>
      have hc : c = '=' := by
        have hhead := List.head?_dropWhile_not (· ≠ '=') item
        rw [hright] at hhead
        simpa using hhead
      subst hc
      dsimp only at h
      split at h
      · cases h
      · next hkey =>
        cases h
        refine ⟨item.takeWhile (· ≠ '='), right, ?_, ?_, rfl, rfl, by simpa [not_or, and_assoc] using hkey⟩
        · rw [← hright, List.takeWhile_append_dropWhile]
        · intro hmem
          have hall := List.all_eq_true.1 (List.all_takeWhile (p := (· ≠ '=')) (l := item)) _ hmem
          simp at hall
  · rintro ⟨left, right, rfl, hleft, rfl, rfl, hne, hopen, hquote⟩
    have hall : ∀ c ∈ left, decide (c ≠ '=') = true := fun c hc => by
      rw [decide_eq_true_iff]
      rintro rfl
      exact hleft hc
    unfold splitAssignment?
    rw [List.dropWhile_append_of_pos hall, List.takeWhile_append_of_pos hall]
    simp [hne, hopen, hquote]

/-- The value of an assignment that is a piece of a list is an item. -/
theorem Piece.value {item key value : List Char} (h : Piece item) (hsplit : splitAssignment? item = some (key, value)) :
    Item value := by
  obtain ⟨left, right, rfl, -, rfl, rfl, -, hopen, hquote⟩ := splitAssignment?_eq_some_iff.1 hsplit
  have hleft : Balanced left := .of_front (fun hmem => hopen (mem_trim hmem (by decide)))
    (fun hmem => hquote (mem_trim hmem (by decide))) h.balanced
  have hright : Piece (['='] ++ right) := h.of_append hleft
  exact (hright.of_append (.plain (by decide) (by decide) (by decide) .nil)).trim

/-! ## The grammar -/

/-- A text is a list if it is blank or balanced text in parentheses. A list is read back as the items it is written
from, one empty item apart, which is written as no item is. What a list is read as are such items: the pieces between
its top-level commas, without the blanks around them. -/
theorem splitList?_grammar :
    (∀ text, (splitList? text).isSome = true ↔
      trim text = [] ∨ ∃ inner, trim text = '(' :: (inner ++ [')']) ∧ Balanced inner) ∧
    (∀ items, items ≠ [] → items ≠ [[]] → (∀ item ∈ items, Item item) →
      splitList? ('(' :: ([','].intercalate items ++ [')'])) = some items) ∧
    ∀ text items, splitList? text = some items → items ≠ [] → items ≠ [[]] ∧ (∀ item ∈ items, Item item) ∧
      ∃ pieces, trim text = '(' :: ([','].intercalate pieces ++ [')']) ∧ items = pieces.map trim ∧
        ∀ piece ∈ pieces, Piece piece := by
  refine ⟨fun text => splitList?_isSome_iff, fun items => splitList?_intercalate, fun text items h hne => ?_⟩
  obtain ⟨pieces, htext, hpieces, rfl, hempty⟩ := pieces_of_splitList? h hne
  exact ⟨hempty, items_of_splitList? h, pieces, htext, rfl, hpieces⟩

/-- A string with a comma and an escaped quote, a group, and an empty item at the end. -/
def mixedItems : List (List Char) :=
  [['"', ',', '\\', '"', ')', '"'], ['(', 'X', '=', '1', ',', 'Y', ')'], []]

/-- The items are read from a text with blanks, and read back from the list that is written from them. -/
theorem splitList?_grammar_mixedItems :
    splitList? [' ', '(', '"', ',', '\\', '"', ')', '"', ' ', ',', '\n', '(', 'X', '=', '1', ',', 'Y', ')', ',', ')'] =
      some mixedItems ∧ mixedItems ≠ [] ∧ mixedItems ≠ [[]] ∧ (∀ item ∈ mixedItems, Item item) ∧
    splitList? ('(' :: ([','].intercalate mixedItems ++ [')'])) = some mixedItems := by
  obtain ⟨-, hwritten, hread⟩ := splitList?_grammar
  have htext : splitList? [' ', '(', '"', ',', '\\', '"', ')', '"', ' ', ',', '\n', '(', 'X', '=', '1', ',', 'Y', ')', ',',
      ')'] = some mixedItems := by decide
  obtain ⟨hempty, hitems, -⟩ := hread _ _ htext (by decide)
  exact ⟨htext, by decide, hempty, hitems, hwritten _ (by decide) hempty hitems⟩

end ListText
end NodeGraph
