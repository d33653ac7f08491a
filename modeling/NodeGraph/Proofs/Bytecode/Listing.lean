import NodeGraph.Bytecode.Listing
import NodeGraph.Proofs.Text

/-!
# Reading listings

A listing says everything about the instructions and the entries of bytecode: its lines can be read back,
whatever numbers, operands and names they contain. The readers take something off the front of a text, and
each of them reads what was printed there in front of any rest that stops it. A line is read with its labels,
the one in front of its instruction and the one that a jump names. Labels are numbered by the ascending list
of all jump targets, so the label that a jump names is the one that its target carries (`listing_faithful`).
-/
namespace NodeGraph

/-- Takes something off the front of a text. -/
abbrev Scan := StateT (List Char) Option

namespace Scan

variable {α β : Type} {a : α} {b : β} {read : Scan α} {next : α → Scan β} {rest text more : List Char}

/-- `read` takes `a` off the front of a text in front of `rest`. -/
def Reads (read : Scan α) (text : List Char) (a : α) (rest : List Char) : Prop := read (text ++ rest) = some (a, rest)

theorem reads_pure (a : α) : Reads (pure a) [] a rest := rfl

theorem Reads.bind (h : Reads read text a (more ++ rest)) (h' : Reads (next a) more b rest) :
    Reads (read >>= next) (text ++ more) b rest := by
  unfold Reads at h
  show (read _).bind _ = _
  rw [List.append_assoc, h]
  exact h'

/-- A reader that takes nothing leaves it all to the next. -/
theorem Reads.peek (h : Reads read [] a (more ++ rest)) (h' : Reads (next a) more b rest) :
    Reads (read >>= next) more b rest := h.bind h'

/-! ## Words and numbers -/

def skip (word : String) : Scan Unit := fun cs =>
  if word.toList <+: cs then some ((), cs.drop word.toList.length) else none

def blanks : Scan Unit := fun cs => some ((), cs.dropWhile (· = ' '))

def letters : Scan String := fun cs => some (.ofList (cs.takeWhile Char.isAlpha), cs.dropWhile Char.isAlpha)

def number : Scan Nat := fun cs => some (Nat.ofDigitChars 10 (cs.takeWhile Char.isDigit) 0, cs.dropWhile Char.isDigit)

/-- Reads on if there is a mark in front. -/
def behind (mark : String) (read : Scan α) : Scan (Option α) := fun cs =>
  if mark.toList <+: cs then (some <$> read) (cs.drop mark.toList.length) else some (none, cs)

/-- What ends a word, a number and an operand. -/
def Stops (rest : List Char) : Prop := ∀ c ∈ rest.head?, c.isAlpha = false ∧ c.isDigit = false ∧ c ≠ '.'

theorem stops_cons {c : Char} (h : c.isAlpha = false ∧ c.isDigit = false ∧ c ≠ '.') : Stops (c :: rest) := by
  simpa [Stops] using h

/-- A run of characters is taken up to one that does not belong to it. -/
theorem span_append {p : Char → Bool} (htext : ∀ c ∈ text, p c = true) (hrest : ∀ c ∈ rest.head?, p c = false) :
    (text ++ rest).takeWhile p = text ∧ (text ++ rest).dropWhile p = rest := by
  rw [List.takeWhile_append_of_pos htext, List.dropWhile_append_of_pos htext]
  cases rest with
  | nil => simp
  | cons c rest => simp [hrest c rfl]

theorem reads_skip (word : String) : Reads (skip word) word.toList () rest := by
  show (if _ then _ else _) = _
  rw [if_pos (List.prefix_append _ _), List.drop_left]

theorem reads_blanks (htext : ∀ c ∈ text, c = ' ') (hrest : ∀ c ∈ rest.head?, c ≠ ' ') : Reads blanks text () rest := by
  have hspan := span_append (p := (· = ' ')) (by simpa using htext) (by simpa using hrest)
  exact congrArg (fun left => some ((), left)) hspan.2

theorem reads_letters {word : String} (hword : word.toList.all Char.isAlpha = true) (hrest : Stops rest) :
    Reads letters word.toList word rest := by
  obtain ⟨htake, hdrop⟩ := span_append (List.all_eq_true.1 hword) fun c hc => (hrest c hc).1
  show some (String.ofList _, _) = _
  rw [htake, hdrop, String.ofList_toList]

theorem reads_number (n : Nat) (hrest : Stops rest) : Reads number (toString n).toList n rest := by
  have hdigits : ∀ c ∈ (toString n).toList, c.isDigit = true := fun c hc => Text.isDigit_of_mem_toString hc
  obtain ⟨htake, hdrop⟩ := span_append hdigits fun c hc => (hrest c hc).2.1
  show some (Nat.ofDigitChars _ _ _, _) = _
  rw [htake, hdrop, show toString n = Nat.repr n from rfl, Nat.toList_repr, Nat.ofDigitChars_ten_toDigits]

theorem reads_behind (mark : String) (h : Reads read text a rest) :
    Reads (behind mark read) (mark.toList ++ text) (some a) rest := by
  have hread : Reads (some <$> read) text (some a) rest := by
    rw [map_eq_pure_bind, ← List.append_nil text]
    exact Reads.bind h (reads_pure _)
  show (if _ then _ else _) = _
  rw [List.append_assoc, if_pos (List.prefix_append _ _), List.drop_left]
  exact hread

theorem reads_behind_none {mark : String} {c : Char} {cs : List Char} (hmark : mark.toList = c :: cs)
    (h : ∀ d ∈ rest.head?, d ≠ c) : Reads (behind mark read) [] none rest := by
  refine if_neg ?_
  rw [hmark, List.nil_append]
  rintro ⟨tail, rfl⟩
  exact h c rfl rfl

/-! ## Operands -/

def operand : Scan Operand := do
  let name ← letters
  let memory ← MemorySpace.all.find? (·.name = name)
  skip "["
  let index ← number
  skip "]"
  let propertyPath ← behind ".p" number
  return { memory, index, propertyPath }

/-- Operands behind the first one, at most as many as given. -/
def moreOperands : Nat → Scan (List Operand)
  | 0 => return []
  | n + 1 => do
    match ← behind ", " operand with
    | some o => return o :: (← moreOperands n)
    | none => return []

def operands : Scan (List Operand) := do
  skip "("
  match ← behind ")" (return ()) with
  | some _ => return []
  | none =>
    let first ← operand
    let others ← moreOperands (← get).length
    skip ")"
    return first :: others

/-- The text of a property path. -/
def pathText (path : Option Nat) : List Char := path.elim [] fun k => ".p".toList ++ (toString k).toList

theorem reads_pathText (path : Option Nat) (hrest : Stops rest) :
    Reads (behind ".p" number) (pathText path) path rest := by
  cases path with
  | none => exact reads_behind_none rfl fun c hc => (hrest c hc).2.2
  | some k => exact reads_behind ".p" (reads_number k hrest)

theorem reads_operand (o : Operand) (hrest : Stops rest) : Reads operand o.describe.toList o rest := by
  obtain ⟨memory, index, path⟩ := o
  have hname : memory.name.toList.all Char.isAlpha = true := by cases memory <;> decide
  have hfind : (MemorySpace.all.find? (·.name = memory.name)) = some memory := by cases memory <;> rfl
  have htext : (Operand.describe ⟨memory, index, path⟩).toList = memory.name.toList ++ ("[".toList ++
      ((toString index).toList ++ ("]".toList ++ (pathText path ++ [])))) := by
    cases path <;> simp [Operand.describe, pathText]
  rw [htext]
  refine (reads_letters hname (stops_cons (by decide))).bind (Reads.peek (a := memory) ?_ ?_)
  · show (MemorySpace.all.find? _).bind _ = _
    rw [hfind]
    rfl
  · exact (reads_skip "[").bind ((reads_number index (stops_cons (by decide))).bind ((reads_skip "]").bind
      ((reads_pathText path hrest).bind (reads_pure _))))

/-- The text of the operands behind the first one. -/
def moreText (os : List Operand) : List Char := os.flatMap fun o => ", ".toList ++ o.describe.toList

theorem stops_moreText (os : List Operand) : Stops (moreText os ++ ')' :: rest) := by
  cases os <;> exact stops_cons (by decide)

theorem length_le_moreText (os : List Operand) : os.length ≤ (moreText os).length := by
  induction os with
  | nil => exact Nat.le_refl 0
  | cons o os ih =>
    rw [moreText, List.flatMap_cons, List.length_append, List.length_append, List.length_cons]
    exact Nat.add_comm os.length 1 ▸ Nat.add_le_add (Nat.le_add_right_of_le (by decide)) ih

theorem reads_moreOperands (os : List Operand) {n : Nat} (hn : os.length ≤ n) :
    Reads (moreOperands n) (moreText os) os (')' :: rest) := by
  induction os generalizing n with
  | nil =>
    cases n with
    | zero => exact reads_pure []
    | succ n => exact (reads_behind_none (c := ',') rfl (by simp)).bind (reads_pure [])
  | cons o os ih =>
    cases n with
    | zero => exact absurd hn (by simp)
    | succ n =>
      have htext : moreText (o :: os) = (", ".toList ++ o.describe.toList) ++ (moreText os ++ []) := by
        rw [List.append_nil]
        rfl
      rw [htext]
      refine (reads_behind ", " (reads_operand o ?_)).bind ((ih (Nat.le_of_succ_le_succ hn)).bind (reads_pure _))
      simpa using stops_moreText os

theorem toList_describeOperands (o : Operand) (os : List Operand) : (Instruction.describeOperands (o :: os)).toList =
    "(".toList ++ (o.describe.toList ++ (moreText os ++ ")".toList)) := by
  have hjoined (texts : List (List Char)) (first : List Char) :
      ", ".toList.intercalate (first :: texts) = first ++ texts.flatMap (", ".toList ++ ·) := by
    induction texts generalizing first with
    | nil => simp
    | cons second texts ih =>
      rw [List.intercalate_cons_cons, ih, List.flatMap_cons, List.append_assoc, List.append_assoc]
  rw [Instruction.describeOperands, String.toList_append, String.toList_append, Text.toList_joined, List.map_cons,
    List.map_cons, hjoined, List.map_map, List.flatMap_map, List.append_assoc, List.append_assoc]
  rfl

theorem reads_operands (os : List Operand) : Reads operands (Instruction.describeOperands os).toList os rest := by
  cases os with
  | nil => exact (reads_skip "(").bind ((reads_behind ")" (reads_pure ())).bind (reads_pure []))
  | cons o os =>
    have hhead {cs : List Char} : ∀ c ∈ (o.describe.toList ++ cs).head?, c ≠ ')' := by
      obtain ⟨memory, index, path⟩ := o
      cases memory <;> cases path <;> simp [Operand.describe, MemorySpace.name]
    have hlength (cs : List Char) : os.length ≤ (moreText os ++ cs).length := by
      rw [List.length_append]
      exact Nat.le_add_right_of_le (length_le_moreText os)
    rw [toList_describeOperands, ← List.append_nil ")".toList]
    refine (reads_skip "(").bind (Reads.peek (reads_behind_none (c := ')') rfl ?_) ?_)
    · rw [List.append_assoc]
      exact hhead
    · refine (reads_operand o (by simpa using stops_moreText os)).bind (Reads.peek rfl ?_)
      rw [List.nil_append, List.append_assoc]
      exact (reads_moreOperands os (hlength _)).bind ((reads_skip ")").bind (reads_pure _))

/-! ## Instructions -/

/-- Reads what follows the name of an instruction. -/
def arguments : String → Scan Instruction
  | "Execute" => do
    skip " #"
    let function ← number
    return .execute function (← operands)
  | "Copy" => do
    skip " "
    let source ← operand
    skip " -> "
    return .copy source (← operand)
  | "Zero" => do
    skip " "
    return .zero (← operand)
  | "Increment" => do
    skip " "
    return .increment (← operand)
  | "Equals" => do
    skip " "
    let lhs ← operand
    skip " == "
    let rhs ← operand
    skip " -> "
    return .equals lhs rhs (← operand)
  | "JumpForward" => do
    skip " +"
    return .jumpForward (← number)
  | "JumpBackward" => do
    skip " -"
    return .jumpBackward (← number)
  | "JumpIf" => do
    skip " "
    let condition ← operand
    skip " == "
    let expected ← letters
    skip " +"
    return .jumpIf condition (← number) (expected = "true")
  | "BeginBlock" => do
    skip " count="
    let count ← operand
    skip " index="
    return .beginBlock count (← operand)
  | "EndBlock" => return .endBlock
  | "Exit" => return .exit
  | name => do
    let op ← ArrayOp.all.find? ("Array" ++ ·.name = name)
    return .array op (← operands)

def instruction : Scan Instruction := do arguments (← letters)

/-- The name of an instruction is read before the rest. -/
theorem reads_instruction_of_arguments {i : Instruction} {word : String} (h : Reads (arguments word) text i rest)
    (hstops : Stops (text ++ rest)) (hword : word.toList.all Char.isAlpha = true := by decide)
    (hdescribe : i.describe.toList = word.toList ++ text := by unfold Instruction.describe; simp) :
    Reads instruction i.describe.toList i rest := by
  rw [hdescribe]
  exact (reads_letters hword hstops).bind h

theorem reads_instruction (i : Instruction) (hrest : Stops rest) : Reads instruction i.describe.toList i rest := by
  have hspace {text : List Char} : Stops (' ' :: text) := stops_cons (by decide)
  have hoperands {os : List Operand} : Stops ((Instruction.describeOperands os).toList ++ rest) := by
    rw [Instruction.describeOperands, String.toList_append, String.toList_append]
    exact stops_cons (c := '(') (by decide)
  cases i with
  | execute function os =>
    have h : Reads (arguments "Execute") _ (.execute function os) rest := (reads_skip " #").bind
      ((reads_number function (by simpa using hoperands)).bind ((reads_operands os).bind (reads_pure _)))
    exact reads_instruction_of_arguments h hspace
  | copy source target =>
    have h : Reads (arguments "Copy") _ (.copy source target) rest := (reads_skip " ").bind
      ((reads_operand source hspace).bind ((reads_skip " -> ").bind
        ((reads_operand target (by simpa using hrest)).bind (reads_pure _))))
    exact reads_instruction_of_arguments h hspace
  | zero o =>
    have h : Reads (arguments "Zero") _ (.zero o) rest := (reads_skip " ").bind
      ((reads_operand o (by simpa using hrest)).bind (reads_pure _))
    exact reads_instruction_of_arguments h hspace
  | increment o =>
    have h : Reads (arguments "Increment") _ (.increment o) rest := (reads_skip " ").bind
      ((reads_operand o (by simpa using hrest)).bind (reads_pure _))
    exact reads_instruction_of_arguments h hspace
  | equals lhs rhs result =>
    have h : Reads (arguments "Equals") _ (.equals lhs rhs result) rest := (reads_skip " ").bind
      ((reads_operand lhs hspace).bind ((reads_skip " == ").bind ((reads_operand rhs hspace).bind
        ((reads_skip " -> ").bind ((reads_operand result (by simpa using hrest)).bind (reads_pure _))))))
    exact reads_instruction_of_arguments h hspace
  | jumpForward offset =>
    have h : Reads (arguments "JumpForward") _ (.jumpForward offset) rest := (reads_skip " +").bind
      ((reads_number offset (by simpa using hrest)).bind (reads_pure _))
    exact reads_instruction_of_arguments h hspace
  | jumpBackward offset =>
    have h : Reads (arguments "JumpBackward") _ (.jumpBackward offset) rest := (reads_skip " -").bind
      ((reads_number offset (by simpa using hrest)).bind (reads_pure _))
    exact reads_instruction_of_arguments h hspace
  | jumpIf condition offset expected =>
    have hword : (toString expected).toList.all Char.isAlpha = true := by cases expected <;> decide
    have hexpected : decide (toString expected = "true") = expected := by cases expected <;> decide
    have h : Reads (arguments "JumpIf") _ (.jumpIf condition offset (decide (toString expected = "true"))) rest :=
      (reads_skip " ").bind ((reads_operand condition hspace).bind ((reads_skip " == ").bind
        ((reads_letters hword hspace).bind ((reads_skip " +").bind ((reads_number offset (by simpa using hrest)).bind (reads_pure _))))))
    rw [hexpected] at h
    exact reads_instruction_of_arguments h hspace
  | beginBlock count index =>
    have h : Reads (arguments "BeginBlock") _ (.beginBlock count index) rest := (reads_skip " count=").bind
      ((reads_operand count hspace).bind ((reads_skip " index=").bind ((reads_operand index (by simpa using hrest)).bind
        (reads_pure _))))
    exact reads_instruction_of_arguments h hspace
  | endBlock =>
    have h : Reads (arguments "EndBlock") [] .endBlock rest := reads_pure _
    exact reads_instruction_of_arguments h hrest
  | exit =>
    have h : Reads (arguments "Exit") [] .exit rest := reads_pure _
    exact reads_instruction_of_arguments h hrest
  | array op os =>
    have harguments : arguments ("Array" ++ op.name) = operands >>= fun os => pure (.array op os) := by cases op <;> rfl
    have h : Reads (arguments ("Array" ++ op.name)) ((Instruction.describeOperands os).toList ++ [])
        (.array op os) rest := by
      rw [harguments]
      exact (reads_operands os).bind (reads_pure _)
    exact reads_instruction_of_arguments h (by simpa using hoperands) (by cases op <;> decide)

/-! ## Lines -/

/-- What a line says. Labels are given by their numbers. -/
structure Line where
  address : Nat
  label : Option Nat
  instruction : Instruction
  target : Option Nat

/-- A number behind a mark and in front of another, if the first mark is there. -/
def marked (mark stop : String) : Scan (Option Nat) := behind mark (do
  let k ← number
  skip stop
  return k)

/-- The label in front of an instruction, with the blanks around it. -/
def labelled : Scan (Option Nat) := do
  blanks
  let label ← marked "L" ":"
  blanks
  return label

def line : Scan Line := do
  blanks
  let address ← number
  let label ← labelled
  let i ← instruction
  let target ← marked " (to L" ")"
  return ⟨address, label, i, target⟩

def markedText (mark stop : String) (k : Nat) : List Char := mark.toList ++ ((toString k).toList ++ (stop.toList ++ []))

theorem reads_marked {mark stop : String} (k : Nat) (hstop : Stops (stop.toList ++ rest)) :
    Reads (marked mark stop) (markedText mark stop k) (some k) rest :=
  reads_behind mark ((reads_number k (by simpa using hstop)).bind ((reads_skip stop).bind (reads_pure k)))

theorem reads_labelled {pad : List Char} (label : Option Nat) (hpad : ∀ c ∈ pad, c = ' ')
    (hrest : ∀ c ∈ rest.head?, c ≠ ' ' ∧ c ≠ 'L') :
    Reads labelled (pad ++ (label.elim [] (markedText "L" ":") ++ "  ".toList)) label rest := by
  have hblank : ∀ c ∈ "  ".toList, c = ' ' := by simp
  cases label with
  | none =>
    rw [← List.append_nil (pad ++ _)]
    refine (reads_blanks (List.forall_mem_append.2 ⟨hpad, hblank⟩) fun c hc => (hrest c hc).1).bind ?_
    refine Reads.peek (reads_behind_none (c := 'L') rfl fun c hc => (hrest c hc).2) ?_
    exact Reads.peek (reads_blanks (by simp) fun c hc => (hrest c hc).1) (reads_pure none)
  | some k =>
    rw [← List.append_nil "  ".toList]
    refine (reads_blanks hpad fun c hc => ?_).bind ((reads_marked k (stops_cons (by decide))).bind
      ((reads_blanks hblank fun c hc => (hrest c hc).1).bind (reads_pure _)))
    cases hc
    decide

theorem head?_describe (i : Instruction) : ∀ c ∈ (i.describe.toList ++ rest).head?, c ≠ ' ' ∧ c ≠ 'L' := by
  cases i <;> unfold Instruction.describe <;> simp

theorem head?_toString (n : Nat) : ∀ c ∈ ((toString n).toList ++ rest).head?, c ≠ ' ' := by
  cases hdigits : (toString n).toList with
  | nil =>
    rw [show toString n = Nat.repr n from rfl, Nat.toList_repr] at hdigits
    exact absurd hdigits Nat.toDigits_ne_nil
  | cons d ds =>
    rintro c hc rfl
    cases hc
    exact absurd (Text.isDigit_of_mem_toString (hdigits ▸ List.mem_cons_self)) (by decide)

theorem reads_target (target : Option Nat) :
    Reads (marked " (to L" ")") (target.elim [] (markedText " (to L" ")")) target [] := by
  cases target with
  | none => exact reads_behind_none (c := ' ') rfl (by simp)
  | some k => exact reads_marked k (stops_cons (by decide))

/-- The text of a line, with any blanks in front of its address and of its label. -/
def lineText (pad pad' : List Char) (x : Line) : List Char :=
  pad ++ ((toString x.address).toList ++ ((' ' :: pad' ++ (x.label.elim [] (markedText "L" ":") ++ "  ".toList)) ++
    (x.instruction.describe.toList ++ (x.target.elim [] (markedText " (to L" ")") ++ []))))

theorem reads_line {pad pad' : List Char} (x : Line) (hpad : ∀ c ∈ pad, c = ' ') (hpad' : ∀ c ∈ pad', c = ' ') :
    Reads line (lineText pad pad' x) x [] := by
  have htarget : Stops (x.target.elim [] (markedText " (to L" ")") ++ [] ++ []) := by
    cases x.target with
    | none => simp [Stops]
    | some k => exact stops_cons (by decide)
  refine (reads_blanks hpad ?_).bind ((reads_number x.address (stops_cons (by decide))).bind ?_)
  · rw [List.append_assoc]
    exact head?_toString x.address
  refine (reads_labelled x.label (List.forall_mem_cons.2 ⟨rfl, hpad'⟩) ?_).bind ?_
  · rw [List.append_assoc]
    exact head?_describe x.instruction
  exact (reads_instruction x.instruction htarget).bind ((reads_target x.target).bind (reads_pure _))

end Scan

namespace Bytecode

open Scan

variable {b : Bytecode} {code : List Instruction} {labels targets l : List Nat} {address n m k : Nat}

/-- What the line of an instruction says. -/
def lineAt (labels : List Nat) (address : Nat) (i : Instruction) : Line where
  address
  label := labels.findIdx? (· = address)
  instruction := i
  target := (i.jumpTarget? address).bind fun target => labels.findIdx? (· = target)

theorem toList_instructionLine (labels : List Nat) (address : Nat) (i : Instruction) :
    ∃ n n', (instructionLine labels address i).toList =
      lineText (List.replicate n ' ') (List.replicate n' ' ') (lineAt labels address i) := by
  have hlabel : labelOf labels address = (lineAt labels address i).label.map fun k => "L" ++ toString k := rfl
  have htarget : (i.jumpTarget? address).bind (labelOf labels) =
      (lineAt labels address i).target.map fun k => "L" ++ toString k := by
    rw [lineAt, Option.map_bind]
    rfl
  refine ⟨4 - (toString address).length + 4,
    4 - ((lineAt labels address i).label.elim "" fun k => "L" ++ toString k ++ ":").length, ?_⟩
  unfold instructionLine lineText
  rw [hlabel, htarget]
  cases (lineAt labels address i).label <;> cases (lineAt labels address i).target <;>
    simp [Text.padLeft, markedText, List.replicate_succ, lineAt]

def readLine (text : List Char) : Option Line := (line text).map Prod.fst

theorem getElem?_instructionLines (k : Nat) : (instructionLines labels address code)[k]? =
    code[k]?.map (instructionLine labels (address + k)) := by
  induction code generalizing address k with
  | nil => rfl
  | cons i code ih =>
    cases k with
    | zero => rfl
    | succ k =>
      rw [instructionLines, List.getElem?_cons_succ, ih, List.getElem?_cons_succ, Nat.succ_add_eq_add_succ]

theorem map_readLine_instructionLines (labels : List Nat) (code : List Instruction) :
    ((instructionLines labels 0 code).map String.toList).map readLine = (code.mapIdx (lineAt labels)).map some := by
  refine List.ext_getElem? fun k => ?_
  have hread (i : Instruction) : readLine (instructionLine labels (0 + k) i).toList = some (lineAt labels k i) := by
    obtain ⟨n, n', htext⟩ := toList_instructionLine labels k i
    have hpad (n : Nat) : ∀ c ∈ List.replicate n ' ', c = ' ' := fun c hc => List.eq_of_mem_replicate hc
    have hline : line _ = _ := reads_line (lineAt labels k i) (hpad n) (hpad n')
    rw [List.append_nil] at hline
    rw [readLine, Nat.zero_add, htext, hline]
    rfl
  simp only [List.getElem?_map, getElem?_instructionLines, List.getElem?_mapIdx]
  cases code[k]? with
  | none => rfl
  | some i => exact congrArg some (hread i)

/-! ## Labels -/

theorem mem_insertAscending : m ∈ insertAscending n l ↔ m = n ∨ m ∈ l := by
  induction l with
  | nil => simp [insertAscending]
  | cons k l ih =>
    rw [insertAscending]
    split
    · exact List.mem_cons
    · split
      · next heq => simp [heq]
      · rw [List.mem_cons, ih, List.mem_cons, or_left_comm]

theorem insertAscending_ascending (h : l.Pairwise (· < ·)) : (insertAscending n l).Pairwise (· < ·) := by
  induction l with
  | nil => exact List.pairwise_singleton _ _
  | cons k l ih =>
    obtain ⟨hhead, htail⟩ := List.pairwise_cons.1 h
    rw [insertAscending]
    split
    · next hlt =>
      exact List.pairwise_cons.2 ⟨List.forall_mem_cons.2 ⟨hlt, fun m hm => Nat.lt_trans hlt (hhead m hm)⟩, h⟩
    · split
      · exact h
      · refine List.pairwise_cons.2 ⟨fun m hm => ?_, ih htail⟩
        rcases mem_insertAscending.1 hm with rfl | hm
        · omega
        · exact hhead m hm

theorem targetsFrom_ascending (address : Nat) (code : List Instruction) :
    (targetsFrom address code).Pairwise (· < ·) := by
  induction code generalizing address with
  | nil => exact .nil
  | cons i code ih =>
    rw [targetsFrom]
    split
    · exact insertAscending_ascending (ih _)
    · exact ih _

theorem mem_targetsFrom {target : Nat} : target ∈ targetsFrom address code ↔
    ∃ (k : Nat) (i : Instruction), code[k]? = some i ∧ i.jumpTarget? (address + k) = some target := by
  induction code generalizing address with
  | nil => simp [targetsFrom]
  | cons i code ih =>
    have hsplit : (∃ (k : Nat) (j : Instruction), (i :: code)[k]? = some j ∧
        j.jumpTarget? (address + k) = some target) ↔ i.jumpTarget? address = some target ∨ target ∈ targetsFrom (address + 1) code := by
      rw [ih]
      constructor
      · rintro ⟨k, j, hj, hjump⟩
        cases k with
        | zero =>
          cases hj
          exact .inl hjump
        | succ k => exact .inr ⟨k, j, hj, by rwa [Nat.succ_add_eq_add_succ]⟩
      · rintro (hjump | ⟨k, j, hj, hjump⟩)
        · exact ⟨0, i, rfl, hjump⟩
        · exact ⟨k + 1, j, hj, by rwa [Nat.succ_add_eq_add_succ] at hjump⟩
    rw [hsplit, targetsFrom]
    cases i.jumpTarget? address with
    | none => simp
    | some first => simp [mem_insertAscending, eq_comm]

/-- In an ascending list a number is found at its only place. -/
theorem findIdx?_eq_some_iff (h : l.Pairwise (· < ·)) : l.findIdx? (· = n) = some k ↔ l[k]? = some n := by
  rw [List.findIdx?_eq_some_iff_getElem, List.getElem?_eq_some_iff]
  refine exists_congr fun hk => ?_
  simp only [decide_eq_true_eq, and_iff_left_iff_imp]
  rintro rfl j hj heq
  exact absurd (List.pairwise_iff_getElem.1 h j k _ hk hj) (by omega)

/-- The labels in the lines of a listing. A line carries the label whose number is the position of its address
among the targets of all jumps, and a jump names the label that its target carries. -/
structure Labelled (b : Bytecode) (lines : List Line) (targets : List Nat) : Prop where
  ascending : targets.Pairwise (· < ·)
  jumps : ∀ t, t ∈ targets ↔ ∃ (a : Nat) (i : Instruction), b.instructions[a]? = some i ∧ i.jumpTarget? a = some t
  instructions : lines.map Line.instruction = b.instructions
  address : ∀ (a : Nat) (x : Line), lines[a]? = some x → x.address = a
  carried : ∀ (a : Nat) (x : Line), lines[a]? = some x → ∀ k, x.label = some k ↔ targets[k]? = some a
  unlabelled : ∀ (a : Nat) (x : Line), lines[a]? = some x → a ∉ targets → x.label = none
  named : ∀ (a : Nat) (x : Line), lines[a]? = some x →
    ∀ k, x.target = some k ↔ ∃ t, x.instruction.jumpTarget? a = some t ∧ targets[k]? = some t
  agree : ∀ (a t : Nat) (x y : Line), lines[a]? = some x → lines[t]? = some y → x.instruction.jumpTarget? a = some t →
    ∃ k, x.target = some k ∧ y.label = some k

theorem labelled (b : Bytecode) : b.Labelled (b.instructions.mapIdx (lineAt b.labels)) b.labels := by
  have hascending : b.labels.Pairwise (· < ·) := targetsFrom_ascending 0 b.instructions
  have hjumps (t : Nat) : t ∈ b.labels ↔
      ∃ (a : Nat) (i : Instruction), b.instructions[a]? = some i ∧ i.jumpTarget? a = some t := by
    rw [labels, mem_targetsFrom]
    simp only [Nat.zero_add]
  have hline {a : Nat} {x : Line} (h : (b.instructions.mapIdx (lineAt b.labels))[a]? = some x) :
      ∃ i, b.instructions[a]? = some i ∧ x = lineAt b.labels a i := by
    rw [List.getElem?_mapIdx, Option.map_eq_some_iff] at h
    obtain ⟨i, hi, rfl⟩ := h
    exact ⟨i, hi, rfl⟩
  refine ⟨hascending, hjumps, ?_, fun a x hx => ?_, fun a x hx k => ?_, fun a x hx hnot => ?_, fun a x hx k => ?_,
    fun a t x y hx hy hjump => ?_⟩
  · refine List.ext_getElem? fun k => ?_
    rw [List.getElem?_map, List.getElem?_mapIdx, Option.map_map]
    exact Option.map_id'
  · obtain ⟨i, -, rfl⟩ := hline hx
    rfl
  · obtain ⟨i, -, rfl⟩ := hline hx
    exact findIdx?_eq_some_iff hascending
  · obtain ⟨i, -, rfl⟩ := hline hx
    refine List.findIdx?_eq_none_iff.2 fun t ht => decide_eq_false ?_
    rintro rfl
    exact hnot ht
  · obtain ⟨i, -, rfl⟩ := hline hx
    simp only [lineAt, Option.bind_eq_some_iff, findIdx?_eq_some_iff hascending]
  · obtain ⟨i, hi, rfl⟩ := hline hx
    obtain ⟨j, -, rfl⟩ := hline hy
    obtain ⟨k, hk⟩ := List.getElem?_of_mem ((hjumps t).2 ⟨a, i, hi, hjump⟩)
    have hfound := (findIdx?_eq_some_iff hascending).2 hk
    exact ⟨k, Option.bind_eq_some_iff.2 ⟨t, hjump, hfound⟩, hfound⟩

/-! ## The text of a listing -/

theorem newline_notMem_toDigits (n : Nat) : '\n' ∉ Nat.toDigits 10 n := fun h =>
  absurd (Nat.isDigit_of_mem_toDigits (by decide) (by decide) h) (by decide)

theorem newline_notMem_operand (o : Operand) : '\n' ∉ o.describe.toList := by
  obtain ⟨memory, index, path⟩ := o
  cases memory <;> cases path <;> simp [Operand.describe, MemorySpace.name, newline_notMem_toDigits]

theorem newline_notMem_operands (os : List Operand) : '\n' ∉ (Instruction.describeOperands os).toList := by
  cases os with
  | nil => simp [Instruction.describeOperands, Text.joined]
  | cons o os => simp [toList_describeOperands, moreText, newline_notMem_operand]

theorem newline_notMem_describe (i : Instruction) : '\n' ∉ i.describe.toList := by
  cases i with
  | array op os => cases op <;> unfold Instruction.describe <;> simp [ArrayOp.name, newline_notMem_operands]
  | jumpIf condition offset expected =>
    have hexpected : '\n' ∉ (toString expected).toList := by cases expected <;> decide
    unfold Instruction.describe
    simp [newline_notMem_operand, newline_notMem_toDigits, hexpected]
  | _ =>
    unfold Instruction.describe
    simp [newline_notMem_operand, newline_notMem_operands, newline_notMem_toDigits]

theorem newline_notMem_instructionLine (labels : List Nat) (address : Nat) (i : Instruction) :
    '\n' ∉ (instructionLine labels address i).toList := by
  obtain ⟨n, n', htext⟩ := toList_instructionLine labels address i
  rw [htext, lineText]
  cases (lineAt labels address i).label <;> cases (lineAt labels address i).target <;>
    simp [markedText, newline_notMem_toDigits, newline_notMem_describe]

theorem newline_notMem_instructionLines (labels : List Nat) (code : List Instruction) :
    ∀ text ∈ instructionLines labels address code, '\n' ∉ text.toList := by
  induction code generalizing address with
  | nil => simp [instructionLines]
  | cons i code ih => exact List.forall_mem_cons.2 ⟨newline_notMem_instructionLine labels address i, ih⟩

/-- Whatever the entries are called, the last lines of the text are those of the instructions and a brace. -/
theorem exists_pieces_listing (b : Bytecode) : ∃ front, Text.pieces '\n' b.listing.toList =
    front ++ (instructionLines b.labels 0 b.instructions).map String.toList ++ [['\x7d']] := by
  refine ⟨(["ByteCode \x7b"] ++ b.entryLines ++ ["  instructions:"]).flatMap fun text =>
    Text.pieces '\n' text.toList, ?_⟩
  rw [listing, Text.pieces_joined rfl (by simp [lines]), lines, List.flatMap_append, List.flatMap_append,
    Text.flatMap_pieces_of_notMem (newline_notMem_instructionLines _ _)]
  rfl

/-! ## Entries -/

/-- The line of an entry. -/
def entryLine (e : String × Nat) : String := "    " ++ e.1 ++ " = " ++ toString e.2

/-- The name of an entry may contain anything, as its address is behind the last blank. -/
theorem entryLine_injective {e e' : String × Nat} (h : entryLine e = entryLine e') : e = e' := by
  obtain ⟨name, n⟩ := e
  obtain ⟨name', n'⟩ := e'
  have hblank (n : Nat) : ' ' ∉ (toString n).toList := fun hmem =>
    absurd (Text.isDigit_of_mem_toString hmem) (by decide)
  have hlast (name : String) (n : Nat) : Text.afterLast ' ' (entryLine (name, n)).toList = (toString n).toList := by
    rw [← Text.afterLast_append (hblank n) (("    " ++ name ++ " =").toList)]
    simp [entryLine]
  have hdigits : (toString n).toList = (toString n').toList := by rw [← hlast name, h, hlast]
  have hread (n : Nat) : number ((toString n).toList ++ []) = some (n, []) := reads_number n (by simp [Stops])
  obtain rfl : n = n' := by
    have hsame := hread n
    rw [hdigits, hread n'] at hsame
    cases hsame
    rfl
  have htext := congrArg String.toList h
  rw [String.toList_inj.1 (show name.toList = name'.toList by simpa [entryLine] using htext)]

theorem entries_eq_of_lines {es es' : List (String × Nat)} {rest rest' : List String}
    (h : es.map entryLine ++ "  ]" :: rest = es'.map entryLine ++ "  ]" :: rest') : es = es' ∧ rest = rest' := by
  have hne (e : String × Nat) : entryLine e ≠ "  ]" := fun heq => by
    simpa [entryLine] using congrArg String.toList heq
  induction es generalizing es' with
  | nil =>
    cases es' with
    | nil => exact ⟨rfl, (List.cons.inj h).2⟩
    | cons e' es' => exact absurd (List.cons.inj h).1.symm (hne e')
  | cons e es ih =>
    cases es' with
    | nil => exact absurd (List.cons.inj h).1 (hne e)
    | cons e' es' =>
      obtain ⟨hhead, htail⟩ := List.cons.inj h
      obtain ⟨rfl, hrest⟩ := ih htail
      exact ⟨by rw [entryLine_injective hhead], hrest⟩

theorem entryLines_of_isEmpty (h : b.entries.toList = []) : b.entryLines = ["  entries: []"] := by
  rw [entryLines, SortedMap.isEmpty, h]
  rfl

theorem entryLines_of_ne_nil (h : b.entries.toList ≠ []) :
    b.entryLines = "  entries: [" :: (b.entries.toList.map entryLine ++ ["  ]"]) := by
  rw [entryLines, SortedMap.isEmpty, List.isEmpty_eq_false_iff.2 h]
  rfl

theorem entries_eq_of_entryLines {a : Bytecode} {rest rest' : List String}
    (h : a.entryLines ++ rest = b.entryLines ++ rest') : a.entries = b.entries ∧ rest = rest' := by
  by_cases ha : a.entries.toList = [] <;> by_cases hb : b.entries.toList = []
  · rw [entryLines_of_isEmpty ha, entryLines_of_isEmpty hb] at h
    exact ⟨SortedMap.ext (ha.trans hb.symm), (List.cons.inj h).2⟩
  · rw [entryLines_of_isEmpty ha, entryLines_of_ne_nil hb] at h
    exact absurd (List.cons.inj h).1 (by decide)
  · rw [entryLines_of_ne_nil ha, entryLines_of_isEmpty hb] at h
    exact absurd (List.cons.inj h).1 (by decide)
  · rw [entryLines_of_ne_nil ha, entryLines_of_ne_nil hb] at h
    simp only [List.cons_append, List.append_assoc, List.cons.injEq, true_and] at h
    obtain ⟨hentries, hrest⟩ := entries_eq_of_lines h
    exact ⟨SortedMap.ext hentries, hrest⟩

/-- Names of entries without line breaks. -/
def HasPlainEntries (b : Bytecode) : Prop := ∀ e ∈ b.entries.toList, '\n' ∉ e.1.toList

theorem newline_notMem_lines (h : b.HasPlainEntries) : ∀ text ∈ b.lines, '\n' ∉ text.toList := by
  have hentries : ∀ text ∈ b.entryLines, '\n' ∉ text.toList := by
    by_cases hnone : b.entries.toList = []
    · rw [entryLines_of_isEmpty hnone]
      simp
    · rw [entryLines_of_ne_nil hnone]
      refine List.forall_mem_cons.2 ⟨by simp, List.forall_mem_append.2 ⟨List.forall_mem_map.2 fun e he => ?_, by simp⟩⟩
      simp [entryLine, newline_notMem_toDigits, h e he]
  simp only [lines, List.forall_mem_append]
  exact ⟨⟨⟨⟨by simp, hentries⟩, by simp⟩, newline_notMem_instructionLines _ _⟩, by simp⟩

/-- Equal texts without line breaks in names have equal lines. -/
theorem lines_eq_of_listing_eq {a : Bytecode} (ha : a.HasPlainEntries) (hb : b.HasPlainEntries)
    (h : a.listing = b.listing) : a.lines = b.lines := by
  have hpieces {b : Bytecode} (hb : b.HasPlainEntries) :
      Text.pieces '\n' b.listing.toList = b.lines.map String.toList := by
    rw [listing, Text.pieces_joined rfl (by simp [lines]), Text.flatMap_pieces_of_notMem (newline_notMem_lines hb)]
  refine List.map_inj_right (fun _ _ => String.toList_inj.1) |>.1 ?_
  rw [← hpieces ha, h, hpieces hb]

/-- **Listings are faithful.** Bytecode whose entries have no line breaks in their names is told from other
such bytecode by its text. In every text the lines of instructions are the last ones before the brace; they
are read as lines in which labels are numbered in ascending order of the jump targets, jumps name the labels
of their targets, and no other line has a label. -/
theorem listing_faithful :
    (∀ a b : Bytecode, a.HasPlainEntries → b.HasPlainEntries → a.listing = b.listing →
      a.instructions = b.instructions ∧ a.entries = b.entries) ∧
    ∀ b : Bytecode, ∃ front texts lines targets, Text.pieces '\n' b.listing.toList = front ++ texts ++ [['\x7d']] ∧
      texts.map readLine = lines.map some ∧ b.Labelled lines targets := by
  refine ⟨fun a b ha hb h => ?_, fun b => ?_⟩
  · have hlines := lines_eq_of_listing_eq ha hb h
    simp only [lines, List.append_assoc, List.cons_append, List.nil_append, List.cons.injEq, true_and] at hlines
    obtain ⟨hentries, hrest⟩ := entries_eq_of_entryLines hlines
    have hcode := List.append_cancel_right (List.cons.inj hrest).2
    have hread := congrArg (fun texts => (texts.map String.toList).map readLine) hcode
    simp only [map_readLine_instructionLines] at hread
    have hsame := List.map_inj_right (fun _ _ => Option.some.inj) |>.1 hread
    exact ⟨by rw [← a.labelled.instructions, hsame, b.labelled.instructions], hentries⟩
  · obtain ⟨front, hfront⟩ := b.exists_pieces_listing
    exact ⟨front, _, _, b.labels, hfront, map_readLine_instructionLines _ _, b.labelled⟩

/-- A loop that is left by a jump to behind the code, with a second jump to the same place. -/
def leftLoop : Bytecode where
  instructions :=
    [.jumpIf ⟨.work, 12, some 3⟩ 4 true, .array .getNum [⟨.literal, 0, none⟩, ⟨.work, 1, none⟩], .jumpBackward 2,
      .jumpForward 1]
  entries := .ofList [("Go = 1", 0)]

theorem listing_faithful_leftLoop : leftLoop.HasPlainEntries ∧
    leftLoop.listing = { leftLoop with callStacks := [[0]] }.listing ∧
    leftLoop.entries = { leftLoop with callStacks := [[0]] }.entries ∧
    ∃ front texts lines targets, Text.pieces '\n' leftLoop.listing.toList = front ++ texts ++ [['\x7d']] ∧
      texts.map readLine = lines.map some ∧ leftLoop.Labelled lines targets := by
  have hplain : leftLoop.HasPlainEntries := List.forall_mem_singleton.2 (by decide)
  exact ⟨hplain, rfl, (listing_faithful.1 leftLoop { leftLoop with callStacks := [[0]] } hplain hplain rfl).2,
    listing_faithful.2 leftLoop⟩

-- Both jumps out of the loop name the label `L1`, which no line carries.
example : (leftLoop.instructions.mapIdx (lineAt leftLoop.labels)).map (fun x => (x.label, x.target)) =
    [(some 0, some 1), (none, none), (none, some 0), (none, some 1)] := by
  decide

end Bytecode
end NodeGraph
