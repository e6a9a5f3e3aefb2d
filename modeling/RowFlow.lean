import RowFlow.Behaviour
import RowFlow.Config
import RowFlow.Control
import RowFlow.Copy.Basic
import RowFlow.Copy.Bench
import RowFlow.Copy.ErrorLayout
import RowFlow.Copy.Local
import RowFlow.Copy.Procedures
import RowFlow.Copy.Program
import RowFlow.Counts
import RowFlow.Definition
import RowFlow.Fault
import RowFlow.FileTree
import RowFlow.Journal
import RowFlow.Json.Basic
import RowFlow.Json.Printer
import RowFlow.Json.Reader
import RowFlow.Json.Record
import RowFlow.Json.Token
import RowFlow.KeyMap
import RowFlow.Lifecycle
import RowFlow.Moment
import RowFlow.Net
import RowFlow.Number.Binary64
import RowFlow.Number.Shortest
import RowFlow.Operator.Basic
import RowFlow.Operator.Executor
import RowFlow.Operator.KeptColumns
import RowFlow.Operator.PassThrough
import RowFlow.Operator.Recipe
import RowFlow.Operator.Rejecter
import RowFlow.Operator.RowList
import RowFlow.Operator.Script
import RowFlow.Operator.Sequence
import RowFlow.Outline
import RowFlow.Plan.Basic
import RowFlow.Plan.Check
import RowFlow.Plan.Order
import RowFlow.Plan.Wiring
import RowFlow.Proofs.Closing.Calls
import RowFlow.Proofs.Closing.Once
import RowFlow.Proofs.Closing.Watch
import RowFlow.Proofs.Config.Overlay
import RowFlow.Proofs.Control.Consistent
import RowFlow.Proofs.Control.RowLimit
import RowFlow.Proofs.Copy.Calls
import RowFlow.Proofs.Copy.Contract
import RowFlow.Proofs.Copy.Failures
import RowFlow.Proofs.Copy.Lives
import RowFlow.Proofs.Copy.Steady
import RowFlow.Proofs.Copy.Watch
import RowFlow.Proofs.Determinacy.Determinate
import RowFlow.Proofs.Determinacy.Ledger
import RowFlow.Proofs.Determinacy.Mirror
import RowFlow.Proofs.Determinacy.Network
import RowFlow.Proofs.Determinacy.Operators
import RowFlow.Proofs.Determinacy.Pace
import RowFlow.Proofs.Determinacy.Secluded
import RowFlow.Proofs.Determinacy.Solo
import RowFlow.Proofs.Determinacy.Start
import RowFlow.Proofs.Determinacy.Strict
import RowFlow.Proofs.Determinacy.Stride
import RowFlow.Proofs.Determinacy.Wires
import RowFlow.Proofs.Errors.Account
import RowFlow.Proofs.Errors.Charge
import RowFlow.Proofs.Executor.Columns
import RowFlow.Proofs.Executor.Durability
import RowFlow.Proofs.Executor.Emission
import RowFlow.Proofs.Executor.Fates
import RowFlow.Proofs.Executor.Recording
import RowFlow.Proofs.Executor.Schedule
import RowFlow.Proofs.Flow.Account
import RowFlow.Proofs.Flow.AtEnd
import RowFlow.Proofs.Flow.Balance
import RowFlow.Proofs.Flow.Conservation
import RowFlow.Proofs.Flow.Contract
import RowFlow.Proofs.Flow.Handing
import RowFlow.Proofs.Flow.History
import RowFlow.Proofs.Flow.Hops
import RowFlow.Proofs.Flow.Operators
import RowFlow.Proofs.Flow.Requests
import RowFlow.Proofs.Flow.Rows
import RowFlow.Proofs.Flow.Seams
import RowFlow.Proofs.Flow.Square
import RowFlow.Proofs.Flow.Tells
import RowFlow.Proofs.Flow.Totals
import RowFlow.Proofs.Growth
import RowFlow.Proofs.Hooks.Order
import RowFlow.Proofs.Hooks.Protocol
import RowFlow.Proofs.Hooks.Stage
import RowFlow.Proofs.Json.Lexing
import RowFlow.Proofs.Json.Reading
import RowFlow.Proofs.Operators
import RowFlow.Proofs.Plan.AsDefined
import RowFlow.Proofs.Plan.Branches
import RowFlow.Proofs.Plan.Check
import RowFlow.Proofs.Plan.Cycles
import RowFlow.Proofs.Plan.Depth
import RowFlow.Proofs.Plan.Disabled
import RowFlow.Proofs.Plan.Ends
import RowFlow.Proofs.Plan.InTurn
import RowFlow.Proofs.Plan.Order
import RowFlow.Proofs.Plan.Sorted
import RowFlow.Proofs.Plan.Spread
import RowFlow.Proofs.Plan.WellFormed
import RowFlow.Proofs.Plan.Wiring
import RowFlow.Proofs.Program.Amid
import RowFlow.Proofs.Program.Asked
import RowFlow.Proofs.Program.Effects
import RowFlow.Proofs.Program.Faults
import RowFlow.Proofs.Program.Frame
import RowFlow.Proofs.Program.Heard
import RowFlow.Proofs.Program.Keeps
import RowFlow.Proofs.Program.Parts
import RowFlow.Proofs.Program.Runs
import RowFlow.Proofs.Program.Steady
import RowFlow.Proofs.Program.Steps
import RowFlow.Proofs.Program.Watch
import RowFlow.Proofs.Progress.Release
import RowFlow.Proofs.Progress.Waiting
import RowFlow.Proofs.Refusal.Alone
import RowFlow.Proofs.Refusal.Attempts
import RowFlow.Proofs.Refusal.Foreseen
import RowFlow.Proofs.Refusal.Hooks
import RowFlow.Proofs.Refusal.Refused
import RowFlow.Proofs.Refusal.Result
import RowFlow.Proofs.Refusal.Returns
import RowFlow.Proofs.Refusal.Settles
import RowFlow.Proofs.Refusal.Tallies
import RowFlow.Proofs.Row.Extension
import RowFlow.Proofs.RowSet.Fifo
import RowFlow.Proofs.RowSet.Layout
import RowFlow.Proofs.Run.Course
import RowFlow.Proofs.Run.CutOff
import RowFlow.Proofs.Run.Diary
import RowFlow.Proofs.Run.Joined
import RowFlow.Proofs.Run.Kept
import RowFlow.Proofs.Run.Lives
import RowFlow.Proofs.Run.Made
import RowFlow.Proofs.Run.Rejections
import RowFlow.Proofs.Run.Staged
import RowFlow.Proofs.Run.Watch
import RowFlow.Proofs.Schema.Names
import RowFlow.Proofs.Search.Available
import RowFlow.Proofs.Search.Looks
import RowFlow.Proofs.Search.Turns
import RowFlow.Proofs.Sending.Calls
import RowFlow.Proofs.Sending.Counting
import RowFlow.Proofs.Sending.Dealing
import RowFlow.Proofs.Sending.Partial
import RowFlow.Proofs.Sending.Rejection
import RowFlow.Proofs.Sequence
import RowFlow.Proofs.Stopping.Programs
import RowFlow.Proofs.Stopping.Prompt
import RowFlow.Proofs.Stopping.Quiescence
import RowFlow.Proofs.Stopping.Returns
import RowFlow.Proofs.Stopping.Slack
import RowFlow.Proofs.Stopping.Waning
import RowFlow.Proofs.Stored.RoundTrip
import RowFlow.Proofs.Text.Numerals
import RowFlow.Proofs.Verdict.Final
import RowFlow.Proofs.Verdict.Grounds
import RowFlow.Proofs.Verdict.Truth
import RowFlow.Registry
import RowFlow.Resource.Basic
import RowFlow.Resource.Canned
import RowFlow.Resource.CommitPolicy
import RowFlow.Row.Basic
import RowFlow.Row.Build
import RowFlow.RowSet
import RowFlow.RowSet.Call
import RowFlow.Run.Basic
import RowFlow.Run.Result
import RowFlow.Run.Turns
import RowFlow.Schema
import RowFlow.StepInfo
import RowFlow.Stored.Definition
import RowFlow.Stored.File
import RowFlow.Stored.Result
import RowFlow.Stored.Schema
import RowFlow.Stored.Value
import RowFlow.Text.Blank
import RowFlow.Text.Hex
import RowFlow.Text.Numeral
import RowFlow.Text.Printable
import RowFlow.Text.Quoted
import RowFlow.Value
