import NodeGraph.Diagnostic.Basic

/-!
# Rendered diagnostics

Two paragraphs for each message: the text after a sign for its severity, then what it is about. Each is
one line unless a name in it holds line breaks. The lines that follow in the text stand behind a bar,
those in what it is about are indented as far as its heading.
-/
namespace NodeGraph.Diagnostic

def sign : Severity → String
  | .error => "×"
  | .warning => "⚠"
  | .info => "☞"

/-- The escape sequence that starts a colour. -/
def startColor : Severity → String
  | .error => "\x1b[31m"
  | .warning => "\x1b[33m"
  | .info => "\x1b[36m"

def endColor : String := "\x1b[0m"

/-- A text in the colour of a severity, if colours are wanted. -/
def colored (color : Bool) (severity : Severity) (text : String) : String :=
  if color then startColor severity ++ text ++ endColor else text

/-- A mark in front of a line of the text. -/
def margin (color : Bool) (severity : Severity) (mark : String) : String :=
  "  " ++ colored color severity mark ++ " "

/-- The text after its sign, further lines behind a bar. -/
def renderMessage (color : Bool) (d : Diagnostic) : String :=
  Text.hanging (margin color d.severity (sign d.severity)) (margin color d.severity "│") d.message

/-- What the message is about. -/
def renderSubject (t : Tree) (color : Bool) (d : Diagnostic) : String :=
  Text.hanging (colored color .info "  help: ") "        " ("in " ++ d.subject.describe t)

def render (t : Tree) (color : Bool) (d : Diagnostic) : String :=
  renderMessage color d ++ "\n" ++ renderSubject t color d ++ "\n"

def renderAll (t : Tree) (color : Bool) (ds : List Diagnostic) : String :=
  Text.joined "" (ds.map (render t color))

end NodeGraph.Diagnostic
