import Stratagem.Command.Basic
import Stratagem.Command.Help
import Stratagem.Command.Host
import Stratagem.Command.Run
import Stratagem.Command.Usage
import Stratagem.Decimal.Double
import Stratagem.Decimal.Layout
import Stratagem.Decimal.Reading
import Stratagem.Decimal.Shortest
import Stratagem.Failure
import Stratagem.Formula.Cursor
import Stratagem.Formula.Evaluation
import Stratagem.Formula.Expr
import Stratagem.Formula.Grammar
import Stratagem.Formula.Literal
import Stratagem.Formula.SyntaxError
import Stratagem.Formula.Value
import Stratagem.Indicator.Average
import Stratagem.Indicator.Basic
import Stratagem.Indicator.Frame
import Stratagem.Indicator.Kind
import Stratagem.Indicator.Momentum
import Stratagem.Indicator.Point
import Stratagem.Indicator.Scan
import Stratagem.Indicator.Spec
import Stratagem.Indicator.Table
import Stratagem.Indicator.Window
import Stratagem.Json.Numeral
import Stratagem.Json.Reading
import Stratagem.Json.Value
import Stratagem.Json.Writing
import Stratagem.Keyed
import Stratagem.Market.Archive
import Stratagem.Market.Bar
import Stratagem.Market.Feed
import Stratagem.Market.History
import Stratagem.Market.Klines
import Stratagem.Market.Records
import Stratagem.Market.Replay
import Stratagem.Plan.Definition
import Stratagem.Plan.DefinitionFault
import Stratagem.Plan.Document
import Stratagem.Plan.Duration
import Stratagem.Plan.Node
import Stratagem.Plan.Path
import Stratagem.Plan.Review
import Stratagem.Scalar
import Stratagem.Session.Backtest
import Stratagem.Session.Context
import Stratagem.Session.Engine
import Stratagem.Session.Polling
import Stratagem.Session.Run
import Stratagem.Session.Tick
import Stratagem.Settings.Basic
import Stratagem.Settings.Groups
import Stratagem.System.Folder
import Stratagem.System.Refusal
import Stratagem.Text.Blank
import Stratagem.Text.Case
import Stratagem.Text.CaseIgnorable
import Stratagem.Text.Cased
import Stratagem.Text.CodeRanges
import Stratagem.Text.Parts
import Stratagem.Time.Calendar
import Stratagem.Time.Instant
import Stratagem.Time.Stamp
import Stratagem.Time.StampReading
import Stratagem.Trade.Decision
import Stratagem.Main
import Stratagem.Proofs.Decimal.Digits
import Stratagem.Proofs.Decimal.Exact
import Stratagem.Proofs.Decimal.Finite
import Stratagem.Proofs.Decimal.Nearest
import Stratagem.Proofs.Decimal.Numerals
import Stratagem.Proofs.Decimal.Rounding
import Stratagem.Proofs.Decimal.ShortestDigits
import Stratagem.Proofs.Decimal.Unpacking
import Stratagem.Proofs.Formula.Assignments
import Stratagem.Proofs.Formula.Balance
import Stratagem.Proofs.Formula.CallNesting
import Stratagem.Proofs.Formula.CallStack
import Stratagem.Proofs.Formula.ChainedComparisons
import Stratagem.Proofs.Formula.Closure
import Stratagem.Proofs.Formula.Completeness
import Stratagem.Proofs.Formula.ErrorPlaces
import Stratagem.Proofs.Formula.ExpressionReads
import Stratagem.Proofs.Formula.FiniteResults
import Stratagem.Proofs.Formula.Mentions
import Stratagem.Proofs.Formula.NextToken
import Stratagem.Proofs.Formula.Phrases
import Stratagem.Proofs.Formula.Printing
import Stratagem.Proofs.Formula.Reads
import Stratagem.Proofs.Formula.Rendering
import Stratagem.Proofs.Formula.Rereading
import Stratagem.Proofs.Formula.Sandbox
import Stratagem.Proofs.Formula.Soundness
import Stratagem.Proofs.Formula.Tokens
import Stratagem.Proofs.Formula.WellFormed
import Stratagem.Proofs.Indicator.Additions
import Stratagem.Proofs.Indicator.Averages
import Stratagem.Proofs.Indicator.Bindings
import Stratagem.Proofs.Indicator.Bounds
import Stratagem.Proofs.Indicator.Columns
import Stratagem.Proofs.Indicator.Configured
import Stratagem.Proofs.Indicator.Lookback
import Stratagem.Proofs.Indicator.Signal
import Stratagem.Proofs.Indicator.Stamps
import Stratagem.Proofs.Indicator.Strength
import Stratagem.Proofs.Indicator.Warmup
import Stratagem.Proofs.Json.Proper
import Stratagem.Proofs.Json.Quoting
import Stratagem.Proofs.Json.WrittenNumbers
import Stratagem.Proofs.Keyed
import Stratagem.Proofs.Market.ClosedKlines
import Stratagem.Proofs.Market.Rows
import Stratagem.Proofs.Market.Sorting
import Stratagem.Proofs.Market.StoredHistories
import Stratagem.Proofs.Plan.Agenda
import Stratagem.Proofs.Plan.Courses
import Stratagem.Proofs.Plan.Definitions
import Stratagem.Proofs.Plan.FaultPlaces
import Stratagem.Proofs.Plan.Findings
import Stratagem.Proofs.Plan.Integers
import Stratagem.Proofs.Plan.Located
import Stratagem.Proofs.Plan.NamedNodes
import Stratagem.Proofs.Plan.PathTexts
import Stratagem.Proofs.Plan.Places
import Stratagem.Proofs.Plan.Reviewed
import Stratagem.Proofs.Plan.Statements
import Stratagem.Proofs.Plan.SurfaceForm
import Stratagem.Proofs.Plan.Targets
import Stratagem.Proofs.Session.Acceptance
import Stratagem.Proofs.Session.Accounts
import Stratagem.Proofs.Session.Aftermath
import Stratagem.Proofs.Session.Blindness
import Stratagem.Proofs.Session.Continuation
import Stratagem.Proofs.Session.Coupling
import Stratagem.Proofs.Session.Effects
import Stratagem.Proofs.Session.FiniteVariables
import Stratagem.Proofs.Session.Foresight
import Stratagem.Proofs.Session.Freshness
import Stratagem.Proofs.Session.Hindsight
import Stratagem.Proofs.Session.Leftovers
import Stratagem.Proofs.Session.LiveReplay
import Stratagem.Proofs.Session.Looks
import Stratagem.Proofs.Session.MarketView
import Stratagem.Proofs.Session.Perform
import Stratagem.Proofs.Session.Recomputing
import Stratagem.Proofs.Session.ReplayMoves
import Stratagem.Proofs.Session.Requests
import Stratagem.Proofs.Session.Resumption
import Stratagem.Proofs.Session.SnapshotLength
import Stratagem.Proofs.Session.StepBudget
import Stratagem.Proofs.Session.Suspension
import Stratagem.Proofs.Session.TableView
import Stratagem.Proofs.Session.Untouched
import Stratagem.Proofs.Session.Waiting
import Stratagem.Proofs.Session.Writes
import Stratagem.Proofs.Time.Calendar
import Stratagem.Proofs.Time.Stamps
import Stratagem.Proofs.Trade.Decisions
import Stratagem.Proofs.Trade.Log
