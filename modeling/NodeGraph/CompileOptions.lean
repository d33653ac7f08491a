import NodeGraph.Text.Split

/-!
# Options

What a compilation reports, which pins it mirrors for watching, and what it records.
-/
namespace NodeGraph

structure CompileOptions where
  suppressInfo : Bool := true
  suppressWarnings : Bool := false
  enablePinWatches : Bool := true
  /-- Paths of watched pins, with or without the call sites they are seen through. -/
  watchedPins : List String := []
  /-- Whether the call stack of every instruction is kept. -/
  recordCallStacks : Bool := true
deriving DecidableEq, Repr, Inhabited

/-- A path without the call sites it is seen through: what follows the last `|`. -/
def barePath (path : String) : String := String.ofList (Text.afterLast '|' path.toList)

/-- Whether a path is watched, either as it is or without its call sites. -/
def CompileOptions.isWatched (o : CompileOptions) (path : String) : Bool :=
  o.enablePinWatches && o.watchedPins.any fun w => w = path || w = barePath path

end NodeGraph
