import StackLang.Command.Arguments
import StackLang.Command.Compiler
import StackLang.Command.Runner
import StackLang.Command.Tool
import StackLang.Compile
import StackLang.Diagnostic
import StackLang.Draft
import StackLang.Failure
import StackLang.Files
import StackLang.Files.Compile
import StackLang.Files.Path
import StackLang.Location
import StackLang.Log
import StackLang.Machine
import StackLang.Machine.Environment
import StackLang.Machine.Run
import StackLang.Machine.Step
import StackLang.Main
import StackLang.Operation
import StackLang.Operator
import StackLang.PrimitiveType
import StackLang.Program
import StackLang.Proofs.Grammar
import StackLang.Report
import StackLang.Scope
import StackLang.Script
import StackLang.Script.Code
import StackLang.Script.Finding
import StackLang.Script.OfTree
import StackLang.Source
import StackLang.Text.Blank
import StackLang.Text.Escape
import StackLang.Text.Line
import StackLang.Text.Numeral
import StackLang.Text.Padding
import StackLang.Text.Printable
import StackLang.Text.Quoted
import StackLang.Text.Similarity
import StackLang.Text.Utf8
import StackLang.Token
import StackLang.Token.Lexer
import StackLang.Tree
import StackLang.Tree.Parser
import StackLang.Tree.Printer
import StackLang.Word
import StackLang.Proofs.Grammar.Plain
import StackLang.Proofs.Grammar.Sound
import StackLang.Proofs.Grammar.Exact
import StackLang.Proofs.Grammar.Complete
import StackLang.Proofs.Grammar.Acceptance
import StackLang.Proofs.Grammar.Settled
import StackLang.Proofs.Grammar.Earliest
import StackLang.Proofs.Discipline
import StackLang.Proofs.Discipline.Step
import StackLang.Proofs.Discipline.Code
import StackLang.Proofs.CallSites
import StackLang.Proofs.Lexemes
import StackLang.Proofs.Meaning
import StackLang.Proofs.Shape
import StackLang.Proofs.Activation
import StackLang.Proofs.Refinement
import StackLang.Proofs.Steps
import StackLang.Proofs.Checked
import StackLang.Proofs.Simulation.Site
import StackLang.Proofs.Simulation.Code
import StackLang.Proofs.Simulation.Expression
import StackLang.Proofs.Simulation.Call
import StackLang.Proofs.Functions
import StackLang.Proofs.Simulation.Program
import StackLang.Proofs.Accepted
import StackLang.Proofs.Runs
import StackLang.Proofs.Preservation
import StackLang.Proofs.Safety
import StackLang.Proofs.WellFormed
import StackLang.Proofs.Transparency
import StackLang.Proofs.Legible
import StackLang.Proofs.Outcomes
import StackLang.Proofs.Contracts
import StackLang.Proofs.Registers
import StackLang.Proofs.Words
import StackLang.Proofs.Layout
import StackLang.Proofs.Discipline.Calls
import StackLang.Proofs.Discipline.Halting
import StackLang.Proofs.Arguments
import StackLang.Proofs.Unplaced
import StackLang.Proofs.Jumps
import StackLang.Proofs.Twins
import StackLang.Proofs.Relocation
import StackLang.Proofs.DefinitionOrder
import StackLang.Proofs.Faults
import StackLang.Proofs.StackSize
import StackLang.Proofs.Callees
import StackLang.Proofs.Targets
import StackLang.Proofs.Spacing
import StackLang.Proofs.Grammar.Moved
import StackLang.Proofs.Places
import StackLang.Proofs.Formatting
import StackLang.Proofs.Writing
import StackLang.Proofs.RoundTrip
import StackLang.Proofs.Causes
import StackLang.Proofs.Types
import StackLang.Proofs.Renaming.Scripts
import StackLang.Proofs.Renaming.Code
import StackLang.Proofs.Renaming
import StackLang.Proofs.NodeShapes
import StackLang.Proofs.CallGraph
import StackLang.Proofs.Termination
import StackLang.Proofs.Wrapping
import StackLang.Proofs.Forms
import StackLang.Proofs.Reports
import StackLang.Proofs.Chains
import StackLang.Proofs.Uses
import StackLang.Proofs.Slots
import StackLang.Proofs.Located
import StackLang.Proofs.Quotes
import StackLang.Proofs.Grammar.Concatenation
import StackLang.Proofs.Grammar.Traced
import StackLang.Proofs.SourceOrder
import StackLang.Proofs.Drawings
import StackLang.Proofs.Grammar.Cursor
import StackLang.Proofs.Grammar.Progress
import StackLang.Proofs.ListingFile
import StackLang.Proofs.Listings
import StackLang.Proofs.Listings.Code
