import DirectoryAccess.BindRule.Basic
import DirectoryAccess.BindRule.Parser
import DirectoryAccess.BitSet
import DirectoryAccess.Decimal.Basic
import DirectoryAccess.Decimal.Double
import DirectoryAccess.Directory.Filter
import DirectoryAccess.Directory.Name
import DirectoryAccess.Directory.ObjectId
import DirectoryAccess.Distinct
import DirectoryAccess.Error
import DirectoryAccess.Failure
import DirectoryAccess.Instruction.Basic
import DirectoryAccess.Instruction.Parser
import DirectoryAccess.Invocation.Basic
import DirectoryAccess.Invocation.Run
import DirectoryAccess.Journal
import DirectoryAccess.Keyword
import DirectoryAccess.Listing
import DirectoryAccess.Main
import DirectoryAccess.Operator
import DirectoryAccess.Permission
import DirectoryAccess.Proofs.BindRule.Derived
import DirectoryAccess.Proofs.BindRule.Form
import DirectoryAccess.Proofs.BindRule.Grammar
import DirectoryAccess.Proofs.BindRule.Items
import DirectoryAccess.Proofs.BindRule.Leaves
import DirectoryAccess.Proofs.BindRule.Limit
import DirectoryAccess.Proofs.BindRule.Nesting
import DirectoryAccess.Proofs.BindRule.Overrun
import DirectoryAccess.Proofs.BindRule.Pieces
import DirectoryAccess.Proofs.BindRule.Rendering
import DirectoryAccess.Proofs.BindRule.Verdict
import DirectoryAccess.Proofs.BitSet
import DirectoryAccess.Proofs.Directory.Wildcard
import DirectoryAccess.Proofs.Distinct
import DirectoryAccess.Proofs.Error.Citation
import DirectoryAccess.Proofs.Findings
import DirectoryAccess.Proofs.Instruction.Assembly
import DirectoryAccess.Proofs.Instruction.Citation
import DirectoryAccess.Proofs.Instruction.Form
import DirectoryAccess.Proofs.Instruction.Label
import DirectoryAccess.Proofs.Instruction.Limit
import DirectoryAccess.Proofs.Instruction.Line
import DirectoryAccess.Proofs.Instruction.Policy
import DirectoryAccess.Proofs.Instruction.RoundTrip
import DirectoryAccess.Proofs.Instruction.Statement
import DirectoryAccess.Proofs.Listing
import DirectoryAccess.Proofs.Listing.Lines
import DirectoryAccess.Proofs.Listing.Numbers
import DirectoryAccess.Proofs.Listing.Steps
import DirectoryAccess.Proofs.Outcome
import DirectoryAccess.Proofs.Outcome.Failing
import DirectoryAccess.Proofs.Permission
import DirectoryAccess.Proofs.Permission.Naming
import DirectoryAccess.Proofs.Quoted
import DirectoryAccess.Proofs.Report.Canonicals
import DirectoryAccess.Proofs.Report.Commands
import DirectoryAccess.Proofs.Report.Readings
import DirectoryAccess.Proofs.Report.Verdicts
import DirectoryAccess.Proofs.Run
import DirectoryAccess.Proofs.TargetRule.Firsts
import DirectoryAccess.Proofs.TargetRule.Grammar
import DirectoryAccess.Proofs.TargetRule.Rendering
import DirectoryAccess.Proofs.TargetRule.Repeated
import DirectoryAccess.Proofs.TargetRule.RoundTrip
import DirectoryAccess.Proofs.TargetRule.Values
import DirectoryAccess.Proofs.Text.Cut
import DirectoryAccess.Proofs.Text.Depth
import DirectoryAccess.Proofs.Text.Entries
import DirectoryAccess.Proofs.Text.Escape
import DirectoryAccess.Proofs.Text.Hereditary
import DirectoryAccess.Proofs.Text.Join
import DirectoryAccess.Proofs.Text.Lacking
import DirectoryAccess.Proofs.Text.Line
import DirectoryAccess.Proofs.Text.Measure
import DirectoryAccess.Proofs.Text.Numeral
import DirectoryAccess.Proofs.Text.Parts
import DirectoryAccess.Proofs.Text.Split
import DirectoryAccess.Proofs.Text.Splitting
import DirectoryAccess.Proofs.Text.Trim
import DirectoryAccess.Proofs.Text.Unescaped
import DirectoryAccess.Proofs.Text.Unquoted
import DirectoryAccess.Proofs.Text.Walk
import DirectoryAccess.Proofs.Token.Fault
import DirectoryAccess.Proofs.Token.Joined
import DirectoryAccess.Proofs.Token.Quote
import DirectoryAccess.Proofs.Token.Scan
import DirectoryAccess.Proofs.Token.Spelling
import DirectoryAccess.Proofs.Token.Target
import DirectoryAccess.Proofs.Tree.Rules
import DirectoryAccess.Proofs.Tree.Values
import DirectoryAccess.Proofs.Value.Bind
import DirectoryAccess.Proofs.Value.Binding
import DirectoryAccess.Proofs.Value.Changes
import DirectoryAccess.Proofs.Value.Citation
import DirectoryAccess.Proofs.Value.Clock
import DirectoryAccess.Proofs.Value.Descriptor
import DirectoryAccess.Proofs.Value.Domain
import DirectoryAccess.Proofs.Value.Ending
import DirectoryAccess.Proofs.Value.Filter
import DirectoryAccess.Proofs.Value.FilterGrammar
import DirectoryAccess.Proofs.Value.Levels
import DirectoryAccess.Proofs.Value.Line
import DirectoryAccess.Proofs.Value.Measure
import DirectoryAccess.Proofs.Value.Names
import DirectoryAccess.Proofs.Value.Pushing
import DirectoryAccess.Proofs.Value.Quoting
import DirectoryAccess.Proofs.Value.Reading
import DirectoryAccess.Proofs.Value.Shape
import DirectoryAccess.Proofs.Value.Start
import DirectoryAccess.Proofs.Value.Target
import DirectoryAccess.Report
import DirectoryAccess.Settings.Basic
import DirectoryAccess.Settings.Source
import DirectoryAccess.TargetRule.Basic
import DirectoryAccess.TargetRule.Parser
import DirectoryAccess.Terminal
import DirectoryAccess.Text.Basic
import DirectoryAccess.Text.Displayed
import DirectoryAccess.Text.Hidden
import DirectoryAccess.Text.Numeral
import DirectoryAccess.Text.Quotes
import DirectoryAccess.Text.Split
import DirectoryAccess.Token.Basic
import DirectoryAccess.Token.Scan
import DirectoryAccess.Toml.Document
import DirectoryAccess.Toml.Item
import DirectoryAccess.Toml.Moment
import DirectoryAccess.Toml.Quoted
import DirectoryAccess.Toml.Word
import DirectoryAccess.Tree.Basic
import DirectoryAccess.Tree.Json
import DirectoryAccess.Tree.Rules
import DirectoryAccess.Tree.Values
import DirectoryAccess.Tree.Yaml
import DirectoryAccess.Value.Attributes
import DirectoryAccess.Value.Basic
import DirectoryAccess.Value.Binding
import DirectoryAccess.Value.Clock
import DirectoryAccess.Value.Days
import DirectoryAccess.Value.Names
import DirectoryAccess.Value.Network
import DirectoryAccess.Value.Scope
import DirectoryAccess.Value.Strength
