import Synopsis.Argv.Basic
import Synopsis.Argv.OptionTable
import Synopsis.Argv.Token
import Synopsis.Argv.Tokenize
import Synopsis.Collections.OrderedMap
import Synopsis.Collections.OrderedSet
import Synopsis.Command.FileAccess
import Synopsis.Command.FileTree
import Synopsis.Command.Invocation
import Synopsis.Command.Path
import Synopsis.Command.Run
import Synopsis.Config
import Synopsis.Data.Datum
import Synopsis.Data.Decode
import Synopsis.Data.Json.Printer
import Synopsis.Data.Json.Reader
import Synopsis.Data.Numeral
import Synopsis.Data.Yaml.Cursor
import Synopsis.Data.Yaml.Printer
import Synopsis.Data.Yaml.Reader
import Synopsis.Data.Yaml.Scalar
import Synopsis.Data.Yaml.ScalarText
import Synopsis.Data.Yaml.Style
import Synopsis.Data.Yaml.Token
import Synopsis.Error
import Synopsis.Grammar.Basic
import Synopsis.Grammar.Match
import Synopsis.Grammar.Report
import Synopsis.Help.Compile
import Synopsis.Help.Declaration
import Synopsis.Help.Element
import Synopsis.Help.Lexeme
import Synopsis.Help.Resolve
import Synopsis.Help.Section
import Synopsis.Help.Usage
import Synopsis.Main
import Synopsis.Matcher.Attempt
import Synopsis.Matcher.Basic
import Synopsis.Matcher.Leaves
import Synopsis.Matcher.Lending
import Synopsis.Matcher.Recorded
import Synopsis.Pattern.Arity
import Synopsis.Pattern.Basic
import Synopsis.Pattern.Expand
import Synopsis.Pattern.Order
import Synopsis.Pattern.Render
import Synopsis.Pattern.Simplify
import Synopsis.Pattern.Slots
import Synopsis.Proofs.Argv.Arguments
import Synopsis.Proofs.Argv.Letters
import Synopsis.Proofs.Argv.Occurrences
import Synopsis.Proofs.Argv.Reading
import Synopsis.Proofs.Argv.Reserved
import Synopsis.Proofs.Argv.Spelling
import Synopsis.Proofs.Argv.Spent
import Synopsis.Proofs.Argv.Tokenized
import Synopsis.Proofs.Argv.Values
import Synopsis.Proofs.Collections
import Synopsis.Proofs.Data.Json
import Synopsis.Proofs.Grammar.Abbreviations
import Synopsis.Proofs.Grammar.Agreement
import Synopsis.Proofs.Grammar.Ahead
import Synopsis.Proofs.Grammar.Appeared
import Synopsis.Proofs.Grammar.Attached
import Synopsis.Proofs.Grammar.Conservation
import Synopsis.Proofs.Grammar.Counting
import Synopsis.Proofs.Grammar.Dashes
import Synopsis.Proofs.Grammar.Ellipsis
import Synopsis.Proofs.Grammar.Exclusion
import Synopsis.Proofs.Grammar.Frame
import Synopsis.Proofs.Grammar.Given
import Synopsis.Proofs.Grammar.Insertion
import Synopsis.Proofs.Grammar.Keys
import Synopsis.Proofs.Grammar.Lending
import Synopsis.Proofs.Grammar.Marker
import Synopsis.Proofs.Grammar.Mentions
import Synopsis.Proofs.Grammar.NoArguments
import Synopsis.Proofs.Grammar.Numbering
import Synopsis.Proofs.Grammar.Options
import Synopsis.Proofs.Grammar.Order
import Synopsis.Proofs.Grammar.Parallel
import Synopsis.Proofs.Grammar.Progress
import Synopsis.Proofs.Grammar.Ranges
import Synopsis.Proofs.Grammar.Recurrent
import Synopsis.Proofs.Grammar.Reporting
import Synopsis.Proofs.Grammar.Results
import Synopsis.Proofs.Grammar.Sessions
import Synopsis.Proofs.Grammar.Shapes
import Synopsis.Proofs.Grammar.Shortcuts
import Synopsis.Proofs.Grammar.Soundness
import Synopsis.Proofs.Grammar.Stacked
import Synopsis.Proofs.Grammar.Termination
import Synopsis.Proofs.Grammar.Values
import Synopsis.Proofs.Help.Alternatives
import Synopsis.Proofs.Help.Choices
import Synopsis.Proofs.Help.Grounded
import Synopsis.Proofs.Help.Leaves
import Synopsis.Proofs.Help.Options
import Synopsis.Proofs.Help.Registry
import Synopsis.Proofs.Help.Rejection
import Synopsis.Proofs.Help.Written
import Synopsis.Proofs.Matcher.Adequacy
import Synopsis.Proofs.Matcher.Advance
import Synopsis.Proofs.Matcher.Ahead
import Synopsis.Proofs.Matcher.Aligned
import Synopsis.Proofs.Matcher.Alike
import Synopsis.Proofs.Matcher.Aside
import Synopsis.Proofs.Matcher.Attached
import Synopsis.Proofs.Matcher.Attested
import Synopsis.Proofs.Matcher.Budget
import Synopsis.Proofs.Matcher.Closed
import Synopsis.Proofs.Matcher.Conservation
import Synopsis.Proofs.Matcher.Counting
import Synopsis.Proofs.Matcher.Coupling
import Synopsis.Proofs.Matcher.Dashes
import Synopsis.Proofs.Matcher.Dashless
import Synopsis.Proofs.Matcher.Dealing
import Synopsis.Proofs.Matcher.Depth
import Synopsis.Proofs.Matcher.Ellipsis
import Synopsis.Proofs.Matcher.Exclusion
import Synopsis.Proofs.Matcher.Failure
import Synopsis.Proofs.Matcher.Frame
import Synopsis.Proofs.Matcher.Fronted
import Synopsis.Proofs.Matcher.Gathering
import Synopsis.Proofs.Matcher.Given
import Synopsis.Proofs.Matcher.Insertion
import Synopsis.Proofs.Matcher.Loans
import Synopsis.Proofs.Matcher.Marks
import Synopsis.Proofs.Matcher.Order
import Synopsis.Proofs.Matcher.Origins
import Synopsis.Proofs.Matcher.Parallel
import Synopsis.Proofs.Matcher.ParallelOptions
import Synopsis.Proofs.Matcher.ParallelPatterns
import Synopsis.Proofs.Matcher.Places
import Synopsis.Proofs.Matcher.Points
import Synopsis.Proofs.Matcher.Ranges
import Synopsis.Proofs.Matcher.Reach
import Synopsis.Proofs.Matcher.Recorded
import Synopsis.Proofs.Matcher.Replaced
import Synopsis.Proofs.Matcher.Required
import Synopsis.Proofs.Matcher.Restore
import Synopsis.Proofs.Matcher.Rounds
import Synopsis.Proofs.Matcher.Rows
import Synopsis.Proofs.Matcher.Run
import Synopsis.Proofs.Matcher.Scanning
import Synopsis.Proofs.Matcher.Steps
import Synopsis.Proofs.Matcher.Sweep
import Synopsis.Proofs.Matcher.Taking
import Synopsis.Proofs.Matcher.Tally
import Synopsis.Proofs.Matcher.Termination
import Synopsis.Proofs.Matcher.Unseen
import Synopsis.Proofs.Matcher.Words
import Synopsis.Proofs.Matcher.Writes
import Synopsis.Proofs.Matcher.Yields
import Synopsis.Proofs.Pattern.Counts
import Synopsis.Proofs.Pattern.NormalForm
import Synopsis.Proofs.Record.Grammar
import Synopsis.Proofs.Record.Pattern
import Synopsis.Record.Config
import Synopsis.Record.Grammar
import Synopsis.Record.Pattern
import Synopsis.Registry
import Synopsis.Slot
import Synopsis.Text.Blank
import Synopsis.Text.CaseFold
import Synopsis.Text.Columns
import Synopsis.Text.Cut
import Synopsis.Text.Lowercase
import Synopsis.Text.Quoted
import Synopsis.Text.Ranges
import Synopsis.Value
import Synopsis.Proofs.Grammar.Duplicates
import Synopsis.Proofs.Matcher.Receipts
import Synopsis.Proofs.Matcher.Built
import Synopsis.Proofs.Matcher.ValueLines
import Synopsis.Proofs.Matcher.Deliveries
import Synopsis.Proofs.Matcher.ArgvOrder
import Synopsis.Proofs.Grammar.ValueOrder
import Synopsis.Proofs.Pattern.Expansion
import Synopsis.Proofs.Help.Derivations
import Synopsis.Proofs.Pattern.Bounds
import Synopsis.Proofs.Matcher.Consumption
import Synopsis.Proofs.Pattern.Reordering
import Synopsis.Proofs.Text.Tabs
import Synopsis.Proofs.Help.Gaps
import Synopsis.Proofs.Help.Declarations
import Synopsis.Proofs.Help.Tabs
import Synopsis.Proofs.Help.Words
import Synopsis.Proofs.Grammar.Arguments
import Synopsis.Proofs.Help.Placeholders
