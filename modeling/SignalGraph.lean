import SignalGraph.BuildError
import SignalGraph.Call
import SignalGraph.CommandLine.FileTree
import SignalGraph.CommandLine.Help
import SignalGraph.CommandLine.Options
import SignalGraph.CommandLine.Run
import SignalGraph.Compilation
import SignalGraph.DataType
import SignalGraph.Decimal.Binary
import SignalGraph.Decimal.Layout
import SignalGraph.Decimal.Shortest
import SignalGraph.Description.Basic
import SignalGraph.Description.Build
import SignalGraph.Diagnostic
import SignalGraph.Fault
import SignalGraph.Graph.Arena
import SignalGraph.Graph.Basic
import SignalGraph.Graph.Build
import SignalGraph.Graph.Collect
import SignalGraph.Graph.Dot
import SignalGraph.Graph.Known
import SignalGraph.Graph.Latency
import SignalGraph.Graph.Link
import SignalGraph.Graph.Printer
import SignalGraph.Graph.Verify
import SignalGraph.Graph.Walk
import SignalGraph.Hook
import SignalGraph.Id
import SignalGraph.Json.Basic
import SignalGraph.Json.Decode
import SignalGraph.Json.Numeral
import SignalGraph.Json.Reader
import SignalGraph.Json.Token
import SignalGraph.Json.Writer
import SignalGraph.Literal
import SignalGraph.LoadError
import SignalGraph.Main
import SignalGraph.ModuleId
import SignalGraph.Pass
import SignalGraph.Pattern.Basic
import SignalGraph.Pattern.Json
import SignalGraph.Pattern.Match
import SignalGraph.Proofs.Acceptance
import SignalGraph.Proofs.Accounting
import SignalGraph.Proofs.Additions
import SignalGraph.Proofs.Alike
import SignalGraph.Proofs.Arguments
import SignalGraph.Proofs.Ascending
import SignalGraph.Proofs.Asking
import SignalGraph.Proofs.Attempts
import SignalGraph.Proofs.Calls
import SignalGraph.Proofs.CanonicalText
import SignalGraph.Proofs.Coherence
import SignalGraph.Proofs.Collection
import SignalGraph.Proofs.Commits
import SignalGraph.Proofs.Courses
import SignalGraph.Proofs.CycleSearch
import SignalGraph.Proofs.Decimals
import SignalGraph.Proofs.Declarations
import SignalGraph.Proofs.Decoding
import SignalGraph.Proofs.Delay
import SignalGraph.Proofs.Dependence
import SignalGraph.Proofs.Describing
import SignalGraph.Proofs.DotText
import SignalGraph.Proofs.Downstream
import SignalGraph.Proofs.Drawing
import SignalGraph.Proofs.Enabling
import SignalGraph.Proofs.Excess
import SignalGraph.Proofs.Exchange
import SignalGraph.Proofs.Fingerprints
import SignalGraph.Proofs.Fixpoint
import SignalGraph.Proofs.Flow
import SignalGraph.Proofs.Fold
import SignalGraph.Proofs.Grammar
import SignalGraph.Proofs.Growth
import SignalGraph.Proofs.Histories
import SignalGraph.Proofs.Insertion
import SignalGraph.Proofs.Instantiation
import SignalGraph.Proofs.Interface
import SignalGraph.Proofs.Levels
import SignalGraph.Proofs.Limits
import SignalGraph.Proofs.Linking
import SignalGraph.Proofs.Loading
import SignalGraph.Proofs.Matching
import SignalGraph.Proofs.Meaning
import SignalGraph.Proofs.Messages
import SignalGraph.Proofs.ModuleText
import SignalGraph.Proofs.Naming
import SignalGraph.Proofs.NumberText
import SignalGraph.Proofs.Outcome
import SignalGraph.Proofs.Overflow
import SignalGraph.Proofs.Passes
import SignalGraph.Proofs.Persistence
import SignalGraph.Proofs.Plans
import SignalGraph.Proofs.Precedence
import SignalGraph.Proofs.Reachability
import SignalGraph.Proofs.Reading
import SignalGraph.Proofs.Redirection
import SignalGraph.Proofs.References
import SignalGraph.Proofs.Registration
import SignalGraph.Proofs.RegistrationOrder
import SignalGraph.Proofs.Registries
import SignalGraph.Proofs.Removal
import SignalGraph.Proofs.Replanning
import SignalGraph.Proofs.Replay
import SignalGraph.Proofs.Rounding
import SignalGraph.Proofs.Runs
import SignalGraph.Proofs.SafeCompilation
import SignalGraph.Proofs.SafeRewriting
import SignalGraph.Proofs.Safety
import SignalGraph.Proofs.Selection
import SignalGraph.Proofs.Steps
import SignalGraph.Proofs.Succession
import SignalGraph.Proofs.Turns
import SignalGraph.Proofs.Types
import SignalGraph.Proofs.Upstream
import SignalGraph.Proofs.Verification
import SignalGraph.Provenance
import SignalGraph.Registry
import SignalGraph.Rewriting.Fixpoint
import SignalGraph.Rewriting.Instantiate
import SignalGraph.Rewriting.Step
import SignalGraph.Rule.Basic
import SignalGraph.Rule.Check
import SignalGraph.Rule.Depth
import SignalGraph.Rule.Order
import SignalGraph.Rule.Set
import SignalGraph.Settings
import SignalGraph.Sha256
import SignalGraph.Signature
import SignalGraph.Text.Blank
import SignalGraph.Text.Glyph
import SignalGraph.Text.Hex
import SignalGraph.Text.Quoted
