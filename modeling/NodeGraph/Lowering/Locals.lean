import NodeGraph.Lowering.Register

/-!
# Locals and arguments

Every call site of a reusable function has its own copy of the function's locals. The copy is set to
the declared defaults by the first code that runs inside the call site. The arguments of a function get
the default texts written at the call site.
-/
namespace NodeGraph.Lowering

/-! ## Locals -/

/-- The key `CallSite|CallSite|Local::name` of a local at a call site. -/
def localKey (g : Graph) (callSite : CallStack) (name : String) : Checked String := do
  return (← CallStack.pathPrefix g callSite) ++ "Local::" ++ name

def localDefaultKey (function name : String) : String :=
  "Function::" ++ function ++ "::Local::" ++ name ++ "::Const"

def localSpec (v : LocalVariable) : RegisterSpec where
  typeName := v.typeName
  isArray := v.isArray
  defaultText := v.defaultValue

/-- The register of a local at a call site. The register of its default is made with it. -/
def Context.localOperand (cx : Context) (callSite : CallStack) (function : String)
    (v : LocalVariable) : Attempt Operand := do
  let _ ← cx.allocate (localDefaultKey function v.name) .literal (localSpec v)
  cx.allocate (← localKey cx.tree.graph callSite v.name) .work (localSpec v)

/-- Gives registers to the locals of a call site. -/
def Context.prepareLocals (cx : Context) (callSite : CallStack) : Step Unit := do
  match callSite.innermost, ← cx.tree.innermostFunction callSite with
  | some site, some function =>
    function.locals.forM fun v => do
      match ← (cx.localOperand callSite function.name v).run with
      | .ok _ => return ()
      | .error error => reportError (.node site) error.message
  | _, _ => return ()

/-- Emits a copy of its default into each local of a call site that has a register. -/
def Context.emitInitializers (cx : Context) (callSite : CallStack) : Step Unit := do
  match ← cx.tree.innermostFunction callSite with
  | none => return ()
  | some function =>
    function.locals.forM fun v => do
      let key ← localKey cx.tree.graph callSite v.name
      let keyed := (← get).storage.keyed
      match keyed.lookup (localDefaultKey function.name v.name), keyed.lookup key with
      | some source, some target => cx.emitUnder callSite (.copy source target)
      | _, _ => return ()

/-- Notes that the code from `start` to the next instruction sets the locals of a call site. -/
def recordInitializers (callSite : CallStack) (start : Nat) : Step Unit :=
  modify fun s => { s with initializers := ⟨callSite, start, s.code.size⟩ :: s.initializers }

/-- Prepares or initializes the locals of a call site, once in each pass. In recorded code a call site
is also initialized if an instruction inside it was emitted. -/
def Context.initializeSite (cx : Context) (callSite : CallStack) : Step Unit := do
  let s ← get
  match cx.pass with
  | .setup =>
    if callSite ∈ s.prepared then return ()
    else
      set { s with prepared := callSite :: s.prepared }
      cx.prepareLocals callSite
  | .emit =>
    if callSite ∈ s.initialized then return ()
    else
      set { s with initialized := callSite :: s.initialized }
      if cx.options.recordCallStacks && s.code.hasInstructionsWithin callSite then return ()
      else
        cx.emitInitializers callSite
        recordInitializers callSite s.code.size

/-- Prepares or initializes the locals of every call site on a call stack. -/
def Context.initializeLocals (cx : Context) (stack : CallStack) : Step Unit :=
  stack.sites.forM cx.initializeSite

/-! ## Arguments -/

/-- The default texts written on the input side of a call site. -/
def ArgumentFrame.capture (g : Graph) (callSite : NodeId) : Checked ArgumentFrame := do
  let pins ← (← g.node callSite).pins.mapM g.pin
  let written := pins.filter fun pin => pin.direction.isInputSide && pin.defaultValue ≠ ""
  return ⟨callSite, written.map fun pin => (pin.name, pin.defaultValue)⟩

/-- How many frames at the front belong to the call sites at the front. -/
def commonFrames : List ArgumentFrame → CallStack → Nat
  | frame :: frames, site :: sites =>
    if frame.callSite = site then commonFrames frames sites + 1 else 0
  | _, _ => 0

/-- Keeps one argument frame for each call site on a call stack. -/
def Context.enterFrames (cx : Context) (stack : CallStack) : Step Unit := do
  let s ← get
  let common := commonFrames s.frames stack
  let entered ← (stack.drop common).mapM (m := Checked) (ArgumentFrame.capture cx.tree.graph)
  set { s with frames := s.frames.take common ++ entered }

/-- The default text given to an argument at a call site. -/
def argumentDefault (frames : List ArgumentFrame) (callSite : NodeId) (name : String) :
    Option String := do
  let frame ← frames.reverse.find? (·.callSite = callSite)
  frame.defaults.lookup name

end NodeGraph.Lowering
