/-!
# Command-line arguments

The compiler takes the path of one document and flags in any order. A flag with a value is written
`--flag value` or `--flag=value`; a value of its own must not look like a flag. Only `--watch` may be
given more than once, and `--` ends the flags.
-/
namespace NodeGraph.Command

/-- What the program is written as. -/
inductive Format where
  /-- A listing of instructions and memory tables. -/
  | disasm
  | json
  /-- The encoding in bytes. -/
  | bin
deriving DecidableEq, Repr

def Format.ofName? : String → Option Format
  | "disasm" => some disasm
  | "json" => some json
  | "bin" => some bin
  | _ => none

/-- A part of the command line. -/
inductive Argument where
  | document (path : String)
  | switch (name : String)
  | setting (name value : String)
deriving DecidableEq, Repr

/-- The flags without a value. -/
def switches : List String :=
  ["no-watches", "dump-tree", "show-info", "hide-warnings", "partial"]

/-- The flags with a value. -/
def settings : List String := ["watch", "emit", "output"]

/-- Whether an argument is a flag or the end of the flags. A single dash is neither. -/
def looksLikeFlag (arg : String) : Bool :=
  match arg.toList with
  | '-' :: _ :: _ => true
  | _ => false

/-- How an argument reads before it is known whether it takes a value. -/
inductive Form where
  | plain (text : String)
  | flag (name : String) (value : Option String)
  | stop
deriving DecidableEq, Repr

/-- The name of a long flag, and its value if it is attached. -/
def splitFlag (flag : List Char) : Form :=
  let name := String.ofList (flag.takeWhile (· ≠ '='))
  match flag.dropWhile (· ≠ '=') with
  | [] => .flag name none
  | _ :: value => .flag name (some (String.ofList value))

/-- The reading of an argument. `-o` is short for `--output` and may have its value attached. -/
def form (arg : String) : Form :=
  match arg.toList with
  | ['-', '-'] => .stop
  | '-' :: '-' :: flag => splitFlag flag
  | ['-', 'o'] => .flag "output" none
  | '-' :: 'o' :: '=' :: value => .flag "output" (some (String.ofList value))
  | '-' :: 'o' :: value => .flag "output" (some (String.ofList value))
  | '-' :: c :: _ => .flag ("-" ++ c.toString) none
  | _ => .plain arg

/-- The parts of a command line; `none` for unknown flags, and for values missing or not wanted. -/
def arguments? : List String → Option (List Argument)
  | [] => some []
  | arg :: rest =>
    match form arg with
    | .stop => some (rest.map .document)
    | .plain path => (arguments? rest).map (.document path :: ·)
    | .flag name (some value) =>
      if name ∈ settings then (arguments? rest).map (.setting name value :: ·) else none
    | .flag name none =>
      if name ∈ switches then (arguments? rest).map (.switch name :: ·)
      else if name ∈ settings then
        match rest with
        | [] => none
        | value :: rest =>
          if looksLikeFlag value then none
          else (arguments? rest).map (.setting name value :: ·)
      else none

/-- What the compiler is asked to do. -/
structure Invocation where
  document : String
  watches : List String := []
  noWatches : Bool := false
  dumpTree : Bool := false
  format : Format := .disasm
  output : Option String := none
  showInfo : Bool := false
  hideWarnings : Bool := false
  /-- Whether a program with errors is written. -/
  keepPartial : Bool := false
deriving DecidableEq, Repr

def documents (args : List Argument) : List String :=
  args.filterMap fun
    | .document path => some path
    | _ => none

/-- The values given to a flag, in order. -/
def values (args : List Argument) (name : String) : List String :=
  args.filterMap fun
    | .setting given value => if given = name then some value else none
    | _ => none

/-- Whether a switch is given; `none` if it is given twice. -/
def switch? (args : List Argument) (name : String) : Option Bool :=
  match args.count (.switch name) with
  | 0 => some false
  | 1 => some true
  | _ => none

/-- The value of a flag that may be given once, read by `f`. -/
def single? {α : Type} (args : List Argument) (name : String) (f : String → Option α) :
    Option (Option α) :=
  match values args name with
  | [] => some none
  | [value] => (f value).map some
  | _ => none

/-- A path must not be empty. -/
def path? (text : String) : Option String := if text.isEmpty then none else some text

/-- Reads a command line; `none` if it is used in the wrong way. -/
def Invocation.parse? (line : List String) : Option Invocation := do
  let args ← arguments? line
  let document ← match documents args with
    | [path] => path? path
    | _ => none
  return {
    document
    watches := values args "watch"
    noWatches := ← switch? args "no-watches"
    dumpTree := ← switch? args "dump-tree"
    format := (← single? args "emit" Format.ofName?).getD .disasm
    output := ← single? args "output" path?
    showInfo := ← switch? args "show-info"
    hideWarnings := ← switch? args "hide-warnings"
    keepPartial := ← switch? args "partial" }

end NodeGraph.Command
