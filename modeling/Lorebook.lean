import Lorebook.Binary64
import Lorebook.Binary64.Shortest
import Lorebook.Book
import Lorebook.Bounded
import Lorebook.Bytes
import Lorebook.Bytes.Lower
import Lorebook.Bytes.Utf8
import Lorebook.Command
import Lorebook.Command.Arguments
import Lorebook.Directive
import Lorebook.Effects
import Lorebook.Entry
import Lorebook.Entry.Directed
import Lorebook.Entry.Override
import Lorebook.Entry.Reader
import Lorebook.Entry.Writer
import Lorebook.Fault
import Lorebook.Fields
import Lorebook.Json
import Lorebook.Json.Coercion
import Lorebook.Json.Printer
import Lorebook.Json.Reader
import Lorebook.KeyList
import Lorebook.KeyMatch
import Lorebook.Main
import Lorebook.Outcome
import Lorebook.Pattern
import Lorebook.Pattern.Names
import Lorebook.Pattern.Parser
import Lorebook.Pattern.Search
import Lorebook.Pattern.Token
import Lorebook.Proofs.Acceptance
import Lorebook.Proofs.Accounting
import Lorebook.Proofs.Activation
import Lorebook.Proofs.Arithmetic
import Lorebook.Proofs.BudgetCap
import Lorebook.Proofs.BudgetMonotone
import Lorebook.Proofs.Caching
import Lorebook.Proofs.CandidateMap
import Lorebook.Proofs.Candidates
import Lorebook.Proofs.Charging
import Lorebook.Proofs.Chunking
import Lorebook.Proofs.CodePoints
import Lorebook.Proofs.Coherence
import Lorebook.Proofs.Counting
import Lorebook.Proofs.Decimal
import Lorebook.Proofs.Digits
import Lorebook.Proofs.DirectiveBlock
import Lorebook.Proofs.Directives
import Lorebook.Proofs.Disabled
import Lorebook.Proofs.DotAll
import Lorebook.Proofs.Draws
import Lorebook.Proofs.EntryLoading
import Lorebook.Proofs.Estimation
import Lorebook.Proofs.Evaluation
import Lorebook.Proofs.Exhaustion
import Lorebook.Proofs.ForcedEffects
import Lorebook.Proofs.Gating
import Lorebook.Proofs.GroupExclusivity
import Lorebook.Proofs.GroupResolution
import Lorebook.Proofs.GroupWinner
import Lorebook.Proofs.Groups
import Lorebook.Proofs.Identity
import Lorebook.Proofs.Indexing
import Lorebook.Proofs.Integers
import Lorebook.Proofs.JoinedKeys
import Lorebook.Proofs.JsonText
import Lorebook.Proofs.Judging
import Lorebook.Proofs.Keywords
import Lorebook.Proofs.Legible
import Lorebook.Proofs.Levels
import Lorebook.Proofs.Limits
import Lorebook.Proofs.LoadOrder
import Lorebook.Proofs.Log
import Lorebook.Proofs.NumberText
import Lorebook.Proofs.Operations
import Lorebook.Proofs.Order
import Lorebook.Proofs.Overrides
import Lorebook.Proofs.Parallel
import Lorebook.Proofs.ParallelRun
import Lorebook.Proofs.Pass
import Lorebook.Proofs.PassCount
import Lorebook.Proofs.PatternCaching
import Lorebook.Proofs.PatternNames
import Lorebook.Proofs.Placement
import Lorebook.Proofs.Prompt
import Lorebook.Proofs.Ranges
import Lorebook.Proofs.Reading
import Lorebook.Proofs.Records
import Lorebook.Proofs.Regeneration
import Lorebook.Proofs.Reload
import Lorebook.Proofs.Rolls
import Lorebook.Proofs.Rounding
import Lorebook.Proofs.Sanitized
import Lorebook.Proofs.Saved
import Lorebook.Proofs.ScanBuffer
import Lorebook.Proofs.Scrubbing
import Lorebook.Proofs.Sequences
import Lorebook.Proofs.StickyWins
import Lorebook.Proofs.StoredVersion
import Lorebook.Proofs.Strings
import Lorebook.Proofs.Tables
import Lorebook.Proofs.Trimming
import Lorebook.Proofs.VariableMap
import Lorebook.Proofs.Variants
import Lorebook.Proofs.Visits
import Lorebook.Random
import Lorebook.Random.Mersenne
import Lorebook.Scan
import Lorebook.Scan.Acceptance
import Lorebook.Scan.Activation
import Lorebook.Scan.Candidate
import Lorebook.Scan.Escalation
import Lorebook.Scan.Forced
import Lorebook.Scan.Groups
import Lorebook.Scan.Matching
import Lorebook.Scan.Settings
import Lorebook.Scan.Setup
import Lorebook.Scan.Text
import Lorebook.Sorting
import Lorebook.Table
import Lorebook.Tokens
import Lorebook.Variables
import Lorebook.Variables.Call
import Lorebook.Variables.Closed
import Lorebook.Vocabulary
