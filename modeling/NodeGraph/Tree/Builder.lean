import NodeGraph.Tree.Search

/-!
# Building trees

Operations that grow a tree by expressions and links. A transfer records the data link it stands for,
so the finished tree knows which pins are connected.
-/
namespace NodeGraph.Tree

def ofGraph (graph : Graph) : Tree := { graph }

def defineFunction (t : Tree) (f : FunctionDefinition) : Tree :=
  { t with functions := t.functions ++ [f] }

/-- Makes `child` a child of `parent`, beside the parents it has. -/
def attach (t : Tree) (child parent : ExprId) : Checked Tree := do
  let above ← t.expr parent
  let exprs := t.exprs.set parent { above with children := above.children ++ [child] }
  let below ← Checked.get .missingExpression exprs child
  return { t with exprs := exprs.set child { below with parents := below.parents ++ [parent] } }

/-- Adds an expression, below a parent or as a root. Its id is the number of expressions before. -/
def add (t : Tree) (x : Expression) (parent : Option ExprId) : Checked (Tree × ExprId) := do
  let id := t.exprs.length
  let t := { t with exprs := t.exprs ++ [x] }
  match parent with
  | some parent => return (← t.attach id parent, id)
  | none => return ({ t with roots := t.roots ++ [id] }, id)

/-- Adds an expression that stands for a node or a pin and is named after it. -/
def addFor (t : Tree) (kind : ExprKind) (parent : Option ExprId) (proxy : Proxy) :
    Checked (Tree × ExprId) := do
  t.add { kind, name := ← proxy.path t.graph, proxy := some proxy } parent

/-- Adds an entry point as a root. -/
def addEntry (t : Tree) (event : Proxy) : Checked (Tree × ExprId) := t.addFor .entry none event

def addBlock (t : Tree) (parent : Option ExprId) (name : String) : Checked (Tree × ExprId) :=
  t.add { kind := .block, name } parent

def addCachedValue (t : Tree) (parent : ExprId) : Checked (Tree × ExprId) :=
  t.add { kind := .cachedValue, name := "Cache" } (some parent)

def addExit (t : Tree) (parent : ExprId) : Checked (Tree × ExprId) :=
  t.add { kind := .exit, name := "Exit" } (some parent)

/-- Records a data link, once. -/
def addLink (t : Tree) (source target : Proxy) : Tree :=
  let link : ProxyLink := ⟨source, target⟩
  if link ∈ t.links then t else { t with links := t.links ++ [link] }

/-- Adds an assignment or a copy, with its link unless source and target are one pin. -/
def addTransfer (t : Tree) (kind : ExprKind) (parent : ExprId) (source target : Proxy) :
    Checked (Tree × ExprId) := do
  let x : Expression := { kind, name := kind.label, proxy := some target, source := some source }
  let (t, id) ← t.add x (some parent)
  return (if source = target then t else t.addLink source target, id)

/-! ## Nodes with their pins -/

/-- The pins from a list and all pins below them, each followed by its sub-pins. `steps` bounds the
nesting. -/
def pinsBelow (g : Graph) : Nat → List PinId → Checked (List PinId)
  | 0, [] => return []
  | 0, p :: _ => .error (.endlessParents p)
  | steps + 1, pins => do
    let forest ← pins.mapM fun p => do
      return p :: (← pinsBelow g steps (← g.pin p).subPins)
    return forest.flatten

/-- Adds a value below `parent` for each of the pins. -/
def addVars (t : Tree) (parent : ExprId) (proxy : Proxy) : List PinId → Checked Tree
  | [] => return t
  | p :: pins => do
    let (t, _) ← t.addFor .var (some parent) (proxy.withPin p)
    t.addVars parent proxy pins

/-- Adds a node expression with a value for each pin of the node, sub-pins included, in order of
declaration. -/
def addNodeWithPins (t : Tree) (kind : ExprKind) (parent : ExprId) (node : Proxy) :
    Checked (Tree × ExprId) := do
  let (t, id) ← t.addFor kind (some parent) node
  let owner ← t.graph.node (← node.nodeId t.graph)
  let pins ← pinsBelow t.graph (t.graph.pins.length + 1) owner.pins
  return (← t.addVars id node pins, id)

/-! ## Connections -/

/-- The value below `target` that stands for a pin. -/
def valueFor (t : Tree) (target : ExprId) (pin : Proxy) : Checked (Option ExprId) := do
  (← t.children target).findM? fun c => do
    let x ← t.expr c
    return x.kind.isValue && x.proxy = some pin

/-- The value below `target` that stands for a pin, added if it is not there. -/
def addValueFor (t : Tree) (target : ExprId) (pin : Proxy) : Checked (Tree × ExprId) := do
  match ← t.valueFor target pin with
  | some var => return (t, var)
  | none => t.addFor .var (some target) pin

/-- Feeds a pin of one node expression from a pin of another: the value of the target pin gets an
assignment whose cached value depends on the source node. -/
def addFeed (t : Tree) (target : ExprId) (targetPin : Proxy) (source : ExprId) (sourcePin : Proxy) :
    Checked (Tree × ExprId) := do
  let (t, var) ← t.addValueFor target targetPin
  let (t, assign) ← t.addTransfer .assign var sourcePin targetPin
  let (t, cache) ← t.addCachedValue assign
  let t ← t.attach source cache
  let (t, _) ← t.addFor .var (some cache) sourcePin
  return (t, assign)

/-- The block below the execution pin of that name, added if it is not there. `none` if no child stands
for such a pin. -/
def addArm (t : Tree) (node : ExprId) (pinName : String) : Checked (Tree × Option ExprId) := do
  match ← t.blockForPin node pinName with
  | some block => return (t, some block)
  | none =>
    match ← t.varForPin node pinName with
    | none => return (t, none)
    | some var =>
      let (t, block) ← t.addBlock (some var) pinName
      return (t, some block)

end NodeGraph.Tree
