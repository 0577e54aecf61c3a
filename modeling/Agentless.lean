import Agentless.App.Binding
import Agentless.App.Budget
import Agentless.App.CalleeTree
import Agentless.App.Canonical
import Agentless.App.Cards
import Agentless.App.Diagram
import Agentless.App.Dodges
import Agentless.App.Expand
import Agentless.App.History
import Agentless.App.MapPackExact
import Agentless.App.Parallel
import Agentless.App.TestConfig
import Agentless.Checks.Callees
import Agentless.Checks.CalleesExact
import Agentless.Checks.Contract
import Agentless.Checks.ContractExact
import Agentless.Checks.Copies
import Agentless.Checks.Dodges
import Agentless.Checks.Globs
import Agentless.Checks.Matching
import Agentless.Checks.MatchingExact
import Agentless.Checks.NearMisses
import Agentless.Checks.Outermost
import Agentless.Checks.Rules
import Agentless.Cli.Account
import Agentless.Cli.Consume
import Agentless.Cli.Nargs
import Agentless.Cli.Parse
import Agentless.Cli.ParseExact
import Agentless.Cli.Steps
import Agentless.Cli.Wrap
import Agentless.Facts.Locs
import Agentless.Facts.LocsExact
import Agentless.Facts.RustOwners
import Agentless.Facts.RustScopes
import Agentless.Facts.RustScopesExact
import Agentless.Facts.Skeleton
import Agentless.Facts.SkeletonExact
import Agentless.Facts.SlicesExact
import Agentless.Facts.Spelling
import Agentless.Facts.Values
import Agentless.Git.Changes
import Agentless.Git.Churn
import Agentless.Git.History
import Agentless.Git.Walk
import Agentless.Graph.AmbiguousDegrees
import Agentless.Graph.AmbiguousExact
import Agentless.Graph.Communities
import Agentless.Graph.CommunitiesExact
import Agentless.Graph.Components
import Agentless.Graph.ComponentsExact
import Agentless.Graph.Cycles
import Agentless.Graph.Flood
import Agentless.Graph.Follow
import Agentless.Graph.Lookup
import Agentless.Graph.Owners
import Agentless.Graph.PathIndex
import Agentless.Graph.Paths
import Agentless.Graph.PathsExact
import Agentless.Graph.Rank
import Agentless.Graph.Resolver
import Agentless.Graph.ShortestPath
import Agentless.Graph.ShortestPathExact
import Agentless.Graph.ShortestPathPruned
import Agentless.Graph.StableId
import Agentless.Graph.StableIdExact
import Agentless.Graph.Symbols
import Agentless.Hook.Call
import Agentless.Hook.Classify
import Agentless.Hook.CsvExact
import Agentless.Hook.Labels
import Agentless.Hook.Payload
import Agentless.Hook.Random
import Agentless.Hook.SearchExact
import Agentless.Hook.SearchGateExact
import Agentless.Hook.SeedsExact
import Agentless.Io.ContainExact
import Agentless.Io.Path
import Agentless.Io.TestRun
import Agentless.Io.Txn
import Agentless.Io.TxnAtomic
import Agentless.Io.TxnContain
import Agentless.Io.Walk
import Agentless.Json.Course
import Agentless.Json.Format
import Agentless.Json.FormatRead
import Agentless.Json.Grammar
import Agentless.Json.Image
import Agentless.Json.Parse
import Agentless.Json.ParseExact
import Agentless.Json.Positions
import Agentless.Json.PositionsExact
import Agentless.Json.Scan
import Agentless.Json.Spell
import Agentless.Json.Value
import Agentless.Json.Write
import Agentless.Json.WriteRead
import Agentless.Kernel.Deadline
import Agentless.Library.Ascii
import Agentless.Library.Assoc
import Agentless.Library.Attempt
import Agentless.Library.Boundary
import Agentless.Library.Brackets
import Agentless.Library.Cohesion
import Agentless.Library.Collect
import Agentless.Library.Directories
import Agentless.Library.Extents
import Agentless.Library.Fallible
import Agentless.Library.Find
import Agentless.Library.Groups
import Agentless.Library.Levels
import Agentless.Library.Lines
import Agentless.Library.Machine
import Agentless.Library.Matching
import Agentless.Library.Memo
import Agentless.Library.Occurrence
import Agentless.Library.OrderedTree
import Agentless.Library.Ordinals
import Agentless.Library.Outermost
import Agentless.Library.Parser
import Agentless.Library.Posix
import Agentless.Library.Program
import Agentless.Library.Queues
import Agentless.Library.RegexChain
import Agentless.Library.Renaming
import Agentless.Library.Search
import Agentless.Library.Sequence
import Agentless.Library.StableSort
import Agentless.Library.Text
import Agentless.Mcp.AutoIndex
import Agentless.Mcp.Roots
import Agentless.Metrics.ClonesExact
import Agentless.Metrics.Sum
import Agentless.Metrics.TokenizeTotal
import Agentless.Metrics.Units
import Agentless.Patch.Applied
import Agentless.Patch.Apply
import Agentless.Patch.Blocks
import Agentless.Patch.BlocksExact
import Agentless.Patch.Hunks
import Agentless.Patch.Keys
import Agentless.Patch.LineModel
import Agentless.Patch.Natural
import Agentless.Patch.Placed
import Agentless.Patch.Reading
import Agentless.Patch.RoundTrip
import Agentless.Patch.Unidiff
import Agentless.Patch.UnidiffExact
import Agentless.Patch.Vote
import Agentless.Patchcheck.Lexer
import Agentless.Patchcheck.LexerExact
import Agentless.Prompts.Template
import Agentless.Store.Incremental
import Agentless.Store.Plan
import Agentless.Store.Settle
import Agentless.Store.Source
import Agentless.Store.Sweep
import Agentless.Store.Writer
import Agentless.Syntax.Flat
import Agentless.Syntax.FlatExact
import Agentless.Syntax.Language
import Agentless.Syntax.Navigation
import Agentless.Text.CodePointOrder
import Agentless.Text.CodePointString
import Agentless.Text.Diff
import Agentless.Text.DiffExact
import Agentless.Text.DiffGroups
import Agentless.Text.DiffLongest
import Agentless.Text.Indent
import Agentless.Text.Quoted
import Agentless.Text.Shell
import Agentless.Text.ShellWords
import Agentless.Text.Textsafe
import Agentless.Text.Word
import Agentless.Validate.Account
import Agentless.Validate.Evaluate
import Agentless.Validate.Plan
