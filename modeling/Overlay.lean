import Overlay.Assembly
import Overlay.CommandLine.Arguments
import Overlay.CommandLine.Run
import Overlay.Corpus
import Overlay.Course
import Overlay.Decimal.Layout
import Overlay.Decimal.Shortest
import Overlay.Diff
import Overlay.Digest.Sha256
import Overlay.Directive
import Overlay.Entries
import Overlay.Environment
import Overlay.Error
import Overlay.Evaluation
import Overlay.Expansion
import Overlay.Files.Evaluation
import Overlay.Files.Loading
import Overlay.Files.Path
import Overlay.Files.Store
import Overlay.Files.Tree
import Overlay.Format
import Overlay.Instantiation
import Overlay.Instantiation.Congruence
import Overlay.Instantiation.Run
import Overlay.Intersection
import Overlay.Json.Number
import Overlay.Json.Parser
import Overlay.Json.Printer
import Overlay.KeyPath
import Overlay.Main
import Overlay.Merge
import Overlay.Output
import Overlay.Parentage
import Overlay.Pattern
import Overlay.Pipeline
import Overlay.Proofs.Assembly
import Overlay.Proofs.Assembly.Accounting
import Overlay.Proofs.Assembly.Chain
import Overlay.Proofs.Assembly.Folds
import Overlay.Proofs.Assembly.Layers
import Overlay.Proofs.Assembly.Lineage
import Overlay.Proofs.Assembly.Selection
import Overlay.Proofs.Assembly.Step
import Overlay.Proofs.Assembly.Targets
import Overlay.Proofs.Corpus
import Overlay.Proofs.Course
import Overlay.Proofs.Course.Related
import Overlay.Proofs.Decimal.Text
import Overlay.Proofs.Diff.Exact
import Overlay.Proofs.Diff.History
import Overlay.Proofs.Diff.Minimal
import Overlay.Proofs.Diff.Patch
import Overlay.Proofs.Diff.RoundTrip
import Overlay.Proofs.Diff.Selection
import Overlay.Proofs.Diff.Stream
import Overlay.Proofs.Entries
import Overlay.Proofs.Escape.Evaluation
import Overlay.Proofs.Escape.Json
import Overlay.Proofs.Escape.Pipeline
import Overlay.Proofs.Escape.Properties
import Overlay.Proofs.Escape.Text
import Overlay.Proofs.Escape.Toml
import Overlay.Proofs.Escape.Value
import Overlay.Proofs.Escape.Yaml
import Overlay.Proofs.Evaluation.Alone
import Overlay.Proofs.Evaluation.Congruence
import Overlay.Proofs.Evaluation.Encoding
import Overlay.Proofs.Evaluation.Hereditary
import Overlay.Proofs.Evaluation.Limit
import Overlay.Proofs.Evaluation.Termination
import Overlay.Proofs.Evaluation.Unmentioned
import Overlay.Proofs.Evaluation.Variables
import Overlay.Proofs.Expansion.Agreement
import Overlay.Proofs.Expansion.Completion
import Overlay.Proofs.Expansion.Congruence
import Overlay.Proofs.Expansion.CrossReference
import Overlay.Proofs.Expansion.Documents
import Overlay.Proofs.Expansion.Expanded
import Overlay.Proofs.Expansion.Items
import Overlay.Proofs.Expansion.Limit
import Overlay.Proofs.Expansion.Outcome
import Overlay.Proofs.Expansion.Splicing
import Overlay.Proofs.Files.Answers
import Overlay.Proofs.Files.Chain
import Overlay.Proofs.Files.Circles
import Overlay.Proofs.Files.Identity
import Overlay.Proofs.Files.Layers
import Overlay.Proofs.Files.Loading
import Overlay.Proofs.Files.Loads
import Overlay.Proofs.Files.Path
import Overlay.Proofs.Files.Sound
import Overlay.Proofs.Files.Tree
import Overlay.Proofs.Format.Json
import Overlay.Proofs.Format.Stream
import Overlay.Proofs.Instantiation.Basic
import Overlay.Proofs.Instantiation.Copies
import Overlay.Proofs.Instantiation.Depth
import Overlay.Proofs.Instantiation.Embedding
import Overlay.Proofs.Instantiation.Keys
import Overlay.Proofs.Instantiation.Place
import Overlay.Proofs.Instantiation.Simulation
import Overlay.Proofs.Instantiation.Template
import Overlay.Proofs.Instantiation.Unmentioned
import Overlay.Proofs.Intersection.Common
import Overlay.Proofs.Intersection.Order
import Overlay.Proofs.Json.RoundTrip
import Overlay.Proofs.Json.Scalar
import Overlay.Proofs.Lineage
import Overlay.Proofs.Lineage.Walk
import Overlay.Proofs.Literal.Basic
import Overlay.Proofs.Literal.Evaluation
import Overlay.Proofs.Literal.Instantiation
import Overlay.Proofs.Literal.Stages
import Overlay.Proofs.Merge.Commutation
import Overlay.Proofs.Merge.Consumption
import Overlay.Proofs.Merge.Entries
import Overlay.Proofs.Merge.Hereditary
import Overlay.Proofs.Merge.Items
import Overlay.Proofs.Merge.Markers
import Overlay.Proofs.Merge.Path
import Overlay.Proofs.Merge.Settled
import Overlay.Proofs.Merge.Union
import Overlay.Proofs.Output.Hoisting
import Overlay.Proofs.Output.Unescaping
import Overlay.Proofs.Pattern
import Overlay.Proofs.Pipeline
import Overlay.Proofs.Properties.RoundTrip
import Overlay.Proofs.Reference
import Overlay.Proofs.Repetition
import Overlay.Proofs.Repetition.Fault
import Overlay.Proofs.Repetition.Limit
import Overlay.Proofs.Repetition.Product
import Overlay.Proofs.Repetition.Range
import Overlay.Proofs.Required
import Overlay.Proofs.Result
import Overlay.Proofs.Text.Fields
import Overlay.Proofs.Text.Lines
import Overlay.Proofs.Text.Numeral
import Overlay.Proofs.Unlabelled.Assembly
import Overlay.Proofs.Unlabelled.Evaluation
import Overlay.Proofs.Value.Equality
import Overlay.Proofs.Value.Equivalence
import Overlay.Proofs.Value.Hereditary
import Overlay.Proofs.Value.Inside
import Overlay.Proofs.Value.Keys
import Overlay.Proofs.Value.Number
import Overlay.Proofs.Value.Place
import Overlay.Proofs.Value.Substitution
import Overlay.Proofs.Value.WellFormed
import Overlay.Proofs.Yaml.Scalar
import Overlay.Properties
import Overlay.Reference
import Overlay.Repetition
import Overlay.Required
import Overlay.Settings
import Overlay.Template
import Overlay.Text.Base64
import Overlay.Text.Blank
import Overlay.Text.Line
import Overlay.Text.Numeral
import Overlay.Toml.Number
import Overlay.Toml.Printer
import Overlay.Toml.Reader
import Overlay.Toml.Table
import Overlay.Toml.Text
import Overlay.Value.Basic
import Overlay.Value.Identity
import Overlay.Value.Plain
import Overlay.Word
import Overlay.Yaml.Cursor
import Overlay.Yaml.Node
import Overlay.Yaml.Printer
import Overlay.Yaml.Quoting
import Overlay.Yaml.Reader
import Overlay.Yaml.Scalar
import Overlay.Yaml.Token.Basic
import Overlay.Yaml.Token.Scalar
import Overlay.Yaml.Token.Scan
