/-!
# Names with a meaning

The pin names that control-flow nodes and array operations look for, and the type of execution pins.
-/
namespace NodeGraph

namespace PinName

def execute : String := "ExecuteContext"
def completed : String := "Completed"
def condition : String := "Condition"
def whenTrue : String := "True"
def whenFalse : String := "False"
def result : String := "Result"
def index : String := "Index"
def values : String := "Values"
def count : String := "Count"
def ratio : String := "Ratio"
def proceed : String := "Continue"
def array : String := "Array"
def element : String := "Element"
def num : String := "Num"
def other : String := "Other"
def success : String := "Success"
def clone : String := "Clone"

end PinName

/-- The type of execution pins, which order effects and own no storage. -/
def executeType : String := "ExecuteContext"

end NodeGraph
