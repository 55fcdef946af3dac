import CellGraph.Assembly
import CellGraph.Ast.Cell
import CellGraph.Ast.Node
import CellGraph.Command.Arguments
import CellGraph.Command.Run
import CellGraph.Command.Usage
import CellGraph.Decimal.Binary64
import CellGraph.Decimal.Shortest
import CellGraph.Error
import CellGraph.Extraction.Constants
import CellGraph.Extraction.Declaration
import CellGraph.Extraction.Descriptors
import CellGraph.Extraction.Desugar
import CellGraph.Extraction.Form
import CellGraph.Extraction.Helper
import CellGraph.Extraction.Import
import CellGraph.Extraction.Patch
import CellGraph.Extraction.References
import CellGraph.Files
import CellGraph.FunctionText
import CellGraph.Graph.Basic
import CellGraph.Graph.Derivation
import CellGraph.Graph.Evaluation
import CellGraph.Json.Basic
import CellGraph.Json.Numeral
import CellGraph.Json.Printer
import CellGraph.Json.Raw
import CellGraph.Json.Record
import CellGraph.Keyed
import CellGraph.Ledger
import CellGraph.Library
import CellGraph.Main
import CellGraph.Native
import CellGraph.Notebook.Address
import CellGraph.Notebook.Basic
import CellGraph.Notebook.Document
import CellGraph.Notebook.Statement
import CellGraph.Platform
import CellGraph.Proofs.Assembly.Order
import CellGraph.Proofs.Assembly.Ownership
import CellGraph.Proofs.Assembly.Replay
import CellGraph.Proofs.Assembly.Runs
import CellGraph.Proofs.Ast
import CellGraph.Proofs.Containment
import CellGraph.Proofs.Effects
import CellGraph.Proofs.Extraction
import CellGraph.Proofs.Extraction.Chains
import CellGraph.Proofs.Extraction.Constants
import CellGraph.Proofs.Extraction.Imitation
import CellGraph.Proofs.Extraction.Occurrences
import CellGraph.Proofs.Extraction.Parameters
import CellGraph.Proofs.Extraction.Reordering
import CellGraph.Proofs.Extraction.Repeats
import CellGraph.Proofs.Extraction.Rewriting
import CellGraph.Proofs.FunctionText
import CellGraph.Proofs.FunctionText.Grammar
import CellGraph.Proofs.FunctionText.Reprinting
import CellGraph.Proofs.Graph.Acts
import CellGraph.Proofs.Graph.Assignment
import CellGraph.Proofs.Graph.Copies
import CellGraph.Proofs.Graph.Cycles
import CellGraph.Proofs.Graph.Declarations
import CellGraph.Proofs.Graph.Firings
import CellGraph.Proofs.Graph.Frame
import CellGraph.Proofs.Graph.History
import CellGraph.Proofs.Graph.Incremental
import CellGraph.Proofs.Graph.Names
import CellGraph.Proofs.Graph.Nesting
import CellGraph.Proofs.Graph.Notices
import CellGraph.Proofs.Graph.Observers
import CellGraph.Proofs.Graph.OneRun
import CellGraph.Proofs.Graph.Orderly
import CellGraph.Proofs.Graph.Recording
import CellGraph.Proofs.Graph.Relay
import CellGraph.Proofs.Graph.Rendering
import CellGraph.Proofs.Graph.Repetition
import CellGraph.Proofs.Graph.Rest
import CellGraph.Proofs.Graph.Run
import CellGraph.Proofs.Graph.Scratch
import CellGraph.Proofs.Graph.Settling
import CellGraph.Proofs.Graph.Substitution
import CellGraph.Proofs.Graph.Tables
import CellGraph.Proofs.Graph.UpToDate
import CellGraph.Proofs.Graph.Visits
import CellGraph.Proofs.Json.Numerals
import CellGraph.Proofs.Json.Reading
import CellGraph.Proofs.Json.Records
import CellGraph.Proofs.Library.Bookkeeping
import CellGraph.Proofs.Library.Cycles
import CellGraph.Proofs.Library.Loading
import CellGraph.Proofs.Library.Paths
import CellGraph.Proofs.Library.Table
import CellGraph.Proofs.Library.Wiring
import CellGraph.Proofs.Mutables
import CellGraph.Proofs.Notebook.Address
import CellGraph.Proofs.Notebook.Statement
import CellGraph.Proofs.Notebook.Stored
import CellGraph.Proofs.Patches
import CellGraph.Proofs.Patches.Splicing
import CellGraph.Proofs.Platform
import CellGraph.Proofs.Same
import CellGraph.Proofs.Slots
import CellGraph.Proofs.Slots.Directory
import CellGraph.Proofs.Text
import CellGraph.Script
import CellGraph.Settings
import CellGraph.Slots
import CellGraph.Text.Blank
import CellGraph.Text.Bytes
import CellGraph.Text.Identifier
import CellGraph.Text.Parts
import CellGraph.Text.Percent
import CellGraph.Text.Unicode
import CellGraph.Toml.Basic
import CellGraph.Toml.Reader
import CellGraph.Value
