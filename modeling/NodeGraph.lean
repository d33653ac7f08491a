import NodeGraph.Bytecode.ArrayOp
import NodeGraph.Bytecode.Basic
import NodeGraph.Bytecode.Instruction
import NodeGraph.Bytecode.Listing
import NodeGraph.Bytecode.Operand
import NodeGraph.Catalog
import NodeGraph.Catalog.Json
import NodeGraph.Command.Arguments
import NodeGraph.Command.Basic
import NodeGraph.Compile
import NodeGraph.CompileOptions
import NodeGraph.Diagnostic.Basic
import NodeGraph.Diagnostic.Render
import NodeGraph.Document.Basic
import NodeGraph.Document.Json
import NodeGraph.Environment
import NodeGraph.Fault
import NodeGraph.Graph.Basic
import NodeGraph.Graph.Json
import NodeGraph.Graph.Path
import NodeGraph.Graph.PinName
import NodeGraph.Json.Basic
import NodeGraph.Json.Printer
import NodeGraph.Json.Reader
import NodeGraph.Json.Shape
import NodeGraph.Json.Token
import NodeGraph.Lowering.Basic
import NodeGraph.Lowering.Control
import NodeGraph.Lowering.Expr
import NodeGraph.Lowering.Locals
import NodeGraph.Lowering.Operands
import NodeGraph.Lowering.Register
import NodeGraph.Main
import NodeGraph.Memory
import NodeGraph.Program.Basic
import NodeGraph.Program.Bytes
import NodeGraph.Program.Codec
import NodeGraph.Program.Json
import NodeGraph.Program.Listing
import NodeGraph.Proofs.Bytecode.Elision
import NodeGraph.Proofs.Bytecode.Execution
import NodeGraph.Proofs.Bytecode.Layout
import NodeGraph.Proofs.Bytecode.Listing
import NodeGraph.Proofs.Bytecode.Machine
import NodeGraph.Proofs.Bytecode.Path
import NodeGraph.Proofs.Compile.Arguments
import NodeGraph.Proofs.Compile.Bounds
import NodeGraph.Proofs.Compile.Branching
import NodeGraph.Proofs.Compile.CopyElision
import NodeGraph.Proofs.Compile.Entries
import NodeGraph.Proofs.Compile.KnownTypes
import NodeGraph.Proofs.Compile.LocalInitialization
import NodeGraph.Proofs.Compile.LoopBodies
import NodeGraph.Proofs.Compile.Loops
import NodeGraph.Proofs.Compile.Mirrors
import NodeGraph.Proofs.Compile.PassDiscipline
import NodeGraph.Proofs.Compile.Producers
import NodeGraph.Proofs.Compile.Recording
import NodeGraph.Proofs.Compile.Registers
import NodeGraph.Proofs.Compile.Reports
import NodeGraph.Proofs.Compile.Selection
import NodeGraph.Proofs.Compile.SeparateLocals
import NodeGraph.Proofs.Compile.SeparateRegisters
import NodeGraph.Proofs.Compile.SharedOperands
import NodeGraph.Proofs.Compile.SharedRegisters
import NodeGraph.Proofs.Compile.Sound
import NodeGraph.Proofs.Compile.StructuralErrors
import NodeGraph.Proofs.Compile.Validation
import NodeGraph.Proofs.Compile.Variables
import NodeGraph.Proofs.Compile.Watching
import NodeGraph.Proofs.Document.Json
import NodeGraph.Proofs.Graph.Building
import NodeGraph.Proofs.Graph.Names
import NodeGraph.Proofs.Graph.Parents
import NodeGraph.Proofs.Graph.Paths
import NodeGraph.Proofs.Graph.WellFormed
import NodeGraph.Proofs.Json.Printing
import NodeGraph.Proofs.Lowering.Account
import NodeGraph.Proofs.Lowering.Alignment
import NodeGraph.Proofs.Lowering.Arguments
import NodeGraph.Proofs.Lowering.CallStacks
import NodeGraph.Proofs.Lowering.Control
import NodeGraph.Proofs.Lowering.CoupledWalk
import NodeGraph.Proofs.Lowering.Coupling
import NodeGraph.Proofs.Lowering.Entries
import NodeGraph.Proofs.Lowering.Expr
import NodeGraph.Proofs.Lowering.Growth
import NodeGraph.Proofs.Lowering.Initializers
import NodeGraph.Proofs.Lowering.Invariant
import NodeGraph.Proofs.Lowering.Keys
import NodeGraph.Proofs.Lowering.Locals
import NodeGraph.Proofs.Lowering.Mirrors
import NodeGraph.Proofs.Lowering.Operands
import NodeGraph.Proofs.Lowering.Pass
import NodeGraph.Proofs.Lowering.Raises
import NodeGraph.Proofs.Lowering.Renaming
import NodeGraph.Proofs.Lowering.Settling
import NodeGraph.Proofs.Lowering.Setup
import NodeGraph.Proofs.Lowering.Shapes
import NodeGraph.Proofs.Lowering.Sites
import NodeGraph.Proofs.Lowering.Sound
import NodeGraph.Proofs.Lowering.Storage
import NodeGraph.Proofs.Lowering.Walk
import NodeGraph.Proofs.Lowering.Watching
import NodeGraph.Proofs.Outcome
import NodeGraph.Proofs.Program.Bytes
import NodeGraph.Proofs.Program.Codec
import NodeGraph.Proofs.Sharing.Components
import NodeGraph.Proofs.Text
import NodeGraph.Proofs.Tree.Building
import NodeGraph.Proofs.Tree.Issues
import NodeGraph.Proofs.Tree.Traversal
import NodeGraph.Proofs.Tree.Valid
import NodeGraph.Proofs.Types.DefaultText
import NodeGraph.Proofs.Types.Layout
import NodeGraph.Proofs.Types.ListText
import NodeGraph.Proofs.Types.Nesting
import NodeGraph.Proofs.Types.Registration
import NodeGraph.Proofs.Types.Registry
import NodeGraph.Proofs.Types.WordSizes
import NodeGraph.Proxy
import NodeGraph.Sharing
import NodeGraph.SortedMap
import NodeGraph.Text.Blank
import NodeGraph.Text.Split
import NodeGraph.Tree.Basic
import NodeGraph.Tree.Builder
import NodeGraph.Tree.Json
import NodeGraph.Tree.Outline
import NodeGraph.Tree.Search
import NodeGraph.Tree.Variables
import NodeGraph.Types.Basic
import NodeGraph.Types.DefaultText
import NodeGraph.Types.Json
import NodeGraph.Types.ListText
import NodeGraph.Validation.Basic
import NodeGraph.Validation.Structure
