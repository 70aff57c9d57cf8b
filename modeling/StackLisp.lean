import StackLisp.Build
import StackLisp.Builtin
import StackLisp.Builtin.Folding
import StackLisp.Builtin.Manual
import StackLisp.Cache
import StackLisp.Cache.Format
import StackLisp.Cbor
import StackLisp.Cbor.Content
import StackLisp.Cbor.Read
import StackLisp.Command
import StackLisp.Command.Failure
import StackLisp.Command.Flag
import StackLisp.Command.Input
import StackLisp.Command.Verb
import StackLisp.Compilation
import StackLisp.Datum
import StackLisp.Datum.Read
import StackLisp.Diagnostic.Code
import StackLisp.Diagnostic.Report
import StackLisp.Diagnostic.Style
import StackLisp.Diagnostic.Suggestion
import StackLisp.Digest.Sha256
import StackLisp.Disk
import StackLisp.Environment
import StackLisp.Expr
import StackLisp.Expr.Analysis
import StackLisp.Expr.Folding
import StackLisp.Expr.FreeNames
import StackLisp.Expr.Printer
import StackLisp.Expr.Walk
import StackLisp.Fault
import StackLisp.Fragment
import StackLisp.Function
import StackLisp.Host
import StackLisp.Image
import StackLisp.Image.Format
import StackLisp.Instruction
import StackLisp.Instruction.Opcode
import StackLisp.Instruction.Walk
import StackLisp.Listing
import StackLisp.Lowering
import StackLisp.Main
import StackLisp.Number.Arithmetic
import StackLisp.Number.Based
import StackLisp.Number.Checked
import StackLisp.Number.Decimal
import StackLisp.Number.Double
import StackLisp.Number.Literal
import StackLisp.Path
import StackLisp.Position
import StackLisp.Program
import StackLisp.Project
import StackLisp.Proofs.Adequacy
import StackLisp.Proofs.Arguments
import StackLisp.Proofs.Assembly
import StackLisp.Proofs.Atoms
import StackLisp.Proofs.Attempts
import StackLisp.Proofs.Attribution
import StackLisp.Proofs.Batches
import StackLisp.Proofs.Buffers
import StackLisp.Proofs.Caching
import StackLisp.Proofs.CallCounts
import StackLisp.Proofs.Carets
import StackLisp.Proofs.CborReading
import StackLisp.Proofs.Checking
import StackLisp.Proofs.Comparisons
import StackLisp.Proofs.Copies
import StackLisp.Proofs.Decoding
import StackLisp.Proofs.Disassembly
import StackLisp.Proofs.Discipline
import StackLisp.Proofs.EditDistance
import StackLisp.Proofs.Emission
import StackLisp.Proofs.Emitter
import StackLisp.Proofs.Encoding
import StackLisp.Proofs.Evaluation
import StackLisp.Proofs.ExactIntegers
import StackLisp.Proofs.Execution
import StackLisp.Proofs.Extent
import StackLisp.Proofs.FaultPlaces
import StackLisp.Proofs.FirstUses
import StackLisp.Proofs.Flattening
import StackLisp.Proofs.Flawless
import StackLisp.Proofs.Flow
import StackLisp.Proofs.Folded
import StackLisp.Proofs.Following
import StackLisp.Proofs.Fragment
import StackLisp.Proofs.Frames
import StackLisp.Proofs.FreeNames
import StackLisp.Proofs.Grammar
import StackLisp.Proofs.Growth
import StackLisp.Proofs.Identification
import StackLisp.Proofs.Inlining
import StackLisp.Proofs.Keys
import StackLisp.Proofs.LateBinding
import StackLisp.Proofs.LexicalScoping
import StackLisp.Proofs.LineEnds
import StackLisp.Proofs.LocationTables
import StackLisp.Proofs.Locations
import StackLisp.Proofs.Milestones
import StackLisp.Proofs.Naming
import StackLisp.Proofs.Numerals
import StackLisp.Proofs.OwnName
import StackLisp.Proofs.Persistence
import StackLisp.Proofs.Places
import StackLisp.Proofs.Pools
import StackLisp.Proofs.Portability
import StackLisp.Proofs.Printing
import StackLisp.Proofs.Processor
import StackLisp.Proofs.ProjectPaths
import StackLisp.Proofs.Provenance
import StackLisp.Proofs.Reading
import StackLisp.Proofs.Records
import StackLisp.Proofs.Recovery
import StackLisp.Proofs.References
import StackLisp.Proofs.Refusals
import StackLisp.Proofs.Rescanning
import StackLisp.Proofs.Rewriting
import StackLisp.Proofs.RewrittenCalls
import StackLisp.Proofs.Rounding
import StackLisp.Proofs.Scopes
import StackLisp.Proofs.Scoping
import StackLisp.Proofs.SelfCalls
import StackLisp.Proofs.Separators
import StackLisp.Proofs.Sequences
import StackLisp.Proofs.Sessions
import StackLisp.Proofs.Simulation
import StackLisp.Proofs.SourceLines
import StackLisp.Proofs.Spelling
import StackLisp.Proofs.Splitting
import StackLisp.Proofs.StackDepth
import StackLisp.Proofs.Storage
import StackLisp.Proofs.Success
import StackLisp.Proofs.Suggestions
import StackLisp.Proofs.Syntax
import StackLisp.Proofs.TableLayout
import StackLisp.Proofs.Texts
import StackLisp.Proofs.Tiling
import StackLisp.Proofs.TopologicalOrder
import StackLisp.Proofs.Tracing
import StackLisp.Proofs.ValidText
import StackLisp.Proofs.Validation
import StackLisp.Proofs.Visibility
import StackLisp.Proofs.WellFormed
import StackLisp.Proofs.Writing
import StackLisp.Refusal
import StackLisp.Resolution
import StackLisp.Table
import StackLisp.Text.Base64
import StackLisp.Text.Blank
import StackLisp.Text.Bytes
import StackLisp.Text.Csv
import StackLisp.Text.Json
import StackLisp.Text.LowerCase
import StackLisp.Text.Printable
import StackLisp.Text.Quoted
import StackLisp.Text.Utf8
import StackLisp.Time.Date
import StackLisp.Time.Duration
import StackLisp.Token
import StackLisp.Token.Scan
import StackLisp.Toml
import StackLisp.Toml.Document
import StackLisp.Toml.Number
import StackLisp.Toml.Read
import StackLisp.Value
