import PolicyAudit.Address.Basic
import PolicyAudit.Address.Resolve
import PolicyAudit.Command.Arguments
import PolicyAudit.Command.Check
import PolicyAudit.Command.Classify
import PolicyAudit.Command.Fix
import PolicyAudit.Command.Layout
import PolicyAudit.Command.Outcome
import PolicyAudit.Command.Rules
import PolicyAudit.Command.Run
import PolicyAudit.Decimal.Shortest
import PolicyAudit.Decimal.Word
import PolicyAudit.Disk
import PolicyAudit.Error
import PolicyAudit.Json.Numeral
import PolicyAudit.Json.Pointer
import PolicyAudit.Json.Printer
import PolicyAudit.Json.Quoted
import PolicyAudit.Json.Reader
import PolicyAudit.Json.Value
import PolicyAudit.Keyed
import PolicyAudit.Lint.Assignment
import PolicyAudit.Lint.Check
import PolicyAudit.Lint.Context
import PolicyAudit.Lint.Edit
import PolicyAudit.Lint.Effect
import PolicyAudit.Lint.Issue
import PolicyAudit.Lint.Options
import PolicyAudit.Lint.Reference
import PolicyAudit.Lint.Rule
import PolicyAudit.Lint.Structure
import PolicyAudit.Lint.Validator
import PolicyAudit.Main
import PolicyAudit.Policy.Field
import PolicyAudit.Policy.Kind
import PolicyAudit.Proofs.Json.Pointer
import PolicyAudit.Proofs.Json.Sorted
import PolicyAudit.Proofs.Json.Update
import PolicyAudit.Proofs.Keyed
import PolicyAudit.Proofs.Lint.Amending
import PolicyAudit.Proofs.Lint.Apart
import PolicyAudit.Proofs.Lint.Changing
import PolicyAudit.Proofs.Lint.Choice
import PolicyAudit.Proofs.Lint.Clearing
import PolicyAudit.Proofs.Lint.Coherence
import PolicyAudit.Proofs.Lint.Conformance
import PolicyAudit.Proofs.Lint.Declaring
import PolicyAudit.Proofs.Lint.Editing
import PolicyAudit.Proofs.Lint.Entries
import PolicyAudit.Proofs.Lint.Expression
import PolicyAudit.Proofs.Lint.Fitting
import PolicyAudit.Proofs.Lint.Formatting
import PolicyAudit.Proofs.Lint.Insertion
import PolicyAudit.Proofs.Lint.Lengths
import PolicyAudit.Proofs.Lint.Limits
import PolicyAudit.Proofs.Lint.Lineage
import PolicyAudit.Proofs.Lint.Marks
import PolicyAudit.Proofs.Lint.Mending
import PolicyAudit.Proofs.Lint.Naming
import PolicyAudit.Proofs.Lint.Nodes
import PolicyAudit.Proofs.Lint.Origin
import PolicyAudit.Proofs.Lint.Pointing
import PolicyAudit.Proofs.Lint.Printing
import PolicyAudit.Proofs.Lint.Ranges
import PolicyAudit.Proofs.Lint.Repair
import PolicyAudit.Proofs.Lint.Repairable
import PolicyAudit.Proofs.Lint.Resolution
import PolicyAudit.Proofs.Lint.Run
import PolicyAudit.Proofs.Lint.Scoping
import PolicyAudit.Proofs.Lint.Tally
import PolicyAudit.Proofs.Lint.Updating
import PolicyAudit.Proofs.Lint.Variants
import PolicyAudit.Proofs.Policy.Change
import PolicyAudit.Proofs.Policy.Part
import PolicyAudit.Proofs.Schema.Fallback
import PolicyAudit.Proofs.Schema.Growth
import PolicyAudit.Proofs.Schema.Library
import PolicyAudit.Proofs.Schema.Locating
import PolicyAudit.Proofs.Schema.Reading
import PolicyAudit.Proofs.Schema.Report
import PolicyAudit.Proofs.Schema.Standalone
import PolicyAudit.Proofs.Schema.Warmth
import PolicyAudit.Proofs.Session.Act
import PolicyAudit.Proofs.Session.Alike
import PolicyAudit.Proofs.Session.Event
import PolicyAudit.Proofs.Session.Fixing
import PolicyAudit.Proofs.Session.Frame
import PolicyAudit.Proofs.Session.Freshness
import PolicyAudit.Proofs.Session.History
import PolicyAudit.Proofs.Session.Isolation
import PolicyAudit.Proofs.Session.Lockstep
import PolicyAudit.Proofs.Session.Passes
import PolicyAudit.Proofs.Session.Past
import PolicyAudit.Proofs.Session.Recall
import PolicyAudit.Proofs.Session.Recency
import PolicyAudit.Proofs.Session.Repairs
import PolicyAudit.Proofs.Session.Request
import PolicyAudit.Proofs.Session.Sleepers
import PolicyAudit.Proofs.Session.Superseded
import PolicyAudit.Proofs.Session.Timing
import PolicyAudit.Proofs.Syntax.Acceptance
import PolicyAudit.Proofs.Syntax.Bytes
import PolicyAudit.Proofs.Syntax.Commenting
import PolicyAudit.Proofs.Syntax.Completeness
import PolicyAudit.Proofs.Syntax.Grammar
import PolicyAudit.Proofs.Syntax.Layout
import PolicyAudit.Proofs.Syntax.Lexing
import PolicyAudit.Proofs.Syntax.Literals
import PolicyAudit.Proofs.Syntax.Lookup
import PolicyAudit.Proofs.Syntax.Node
import PolicyAudit.Proofs.Syntax.Path
import PolicyAudit.Proofs.Syntax.Placement
import PolicyAudit.Proofs.Syntax.Quoting
import PolicyAudit.Proofs.Syntax.Recovery
import PolicyAudit.Proofs.Syntax.Rewriting
import PolicyAudit.Proofs.Syntax.RoundTrip
import PolicyAudit.Proofs.Syntax.Scan
import PolicyAudit.Proofs.Syntax.Scanning
import PolicyAudit.Proofs.Syntax.Shape
import PolicyAudit.Proofs.Syntax.Skipping
import PolicyAudit.Proofs.Syntax.Slice
import PolicyAudit.Proofs.Syntax.Soundness
import PolicyAudit.Proofs.Syntax.Step
import PolicyAudit.Proofs.Syntax.Totality
import PolicyAudit.Proofs.Syntax.Trivia
import PolicyAudit.Proofs.Syntax.Value
import PolicyAudit.Proofs.Syntax.Walk
import PolicyAudit.Proofs.Text.Lines
import PolicyAudit.Proofs.Text.Pattern
import PolicyAudit.Proofs.Text.Position
import PolicyAudit.Proofs.Text.Trimming
import PolicyAudit.Schema.Basic
import PolicyAudit.Schema.Catalog
import PolicyAudit.Schema.Compiled
import PolicyAudit.Schema.Fault
import PolicyAudit.Schema.Language
import PolicyAudit.Schema.Locate
import PolicyAudit.Schema.Reader
import PolicyAudit.Schema.Registry
import PolicyAudit.Schema.Shipped
import PolicyAudit.Schema.Violation
import PolicyAudit.Session.Cache
import PolicyAudit.Session.Debounce
import PolicyAudit.Session.Diagnostic
import PolicyAudit.Session.Service
import PolicyAudit.Settings.Basic
import PolicyAudit.Settings.Layer
import PolicyAudit.Settings.Load
import PolicyAudit.Syntax.Cursor
import PolicyAudit.Syntax.Document
import PolicyAudit.Syntax.Fault
import PolicyAudit.Syntax.Reader
import PolicyAudit.Syntax.Token
import PolicyAudit.Syntax.Tree
import PolicyAudit.Text.Blank
import PolicyAudit.Text.Fold
import PolicyAudit.Text.Offset
import PolicyAudit.Text.Pattern
import PolicyAudit.Text.Position
import PolicyAudit.Text.Split
import PolicyAudit.Text.Word
import PolicyAudit.Toml.Reader
import PolicyAudit.Toml.Token
import PolicyAudit.Toml.Value
import PolicyAudit.Proofs.Lint.Accounting
