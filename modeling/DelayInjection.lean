import DelayInjection.Table
import DelayInjection.Text.Blank
import DelayInjection.Text.Lines
import DelayInjection.Text.Fields
import DelayInjection.Text.Numeral
import DelayInjection.Pattern
import DelayInjection.Random
import DelayInjection.Decimal.Shortest
import DelayInjection.Decimal.Written
import DelayInjection.Point
import DelayInjection.ObjectTable
import DelayInjection.HitCount
import DelayInjection.Classifier
import DelayInjection.LocationPair
import DelayInjection.Danger
import DelayInjection.History.LocalHits
import DelayInjection.History.RecentThreads
import DelayInjection.History.ThreadRecords
import DelayInjection.History.AccessLog
import DelayInjection.Trap.Basic
import DelayInjection.Trap.Store
import DelayInjection.Trap.Active
import DelayInjection.Plan.Basic
import DelayInjection.Plan.Store
import DelayInjection.Persist.PlanPoint
import DelayInjection.Persist.Line
import DelayInjection.Persist.Replay
import DelayInjection.Disk.Path
import DelayInjection.Disk.Basic
import DelayInjection.Log
import DelayInjection.Persist.PlanFile
import DelayInjection.Persist.PlanLog
import DelayInjection.RaceLedger
import DelayInjection.Json.Written
import DelayInjection.Json.Read
import DelayInjection.Report.Written
import DelayInjection.Report.Sink
import DelayInjection.Datum
import DelayInjection.Config.Basic
import DelayInjection.Config.Validate
import DelayInjection.Config.Document
import DelayInjection.Toml.Scalar
import DelayInjection.Toml.Quoted
import DelayInjection.Toml.Item
import DelayInjection.Toml.Document
import DelayInjection.Config.Read
import DelayInjection.Control.Shared
import DelayInjection.Control.Randomized
import DelayInjection.Control.Learned
import DelayInjection.Control.Run
import DelayInjection.Control.Recorder
import DelayInjection.Control.Session
import DelayInjection.Detector
import DelayInjection.CommandLine.Arguments
import DelayInjection.CommandLine.Answer
import DelayInjection.Main
import DelayInjection.Proofs.Table
import DelayInjection.Proofs.ObjectTable
import DelayInjection.Proofs.Trap.Filing
import DelayInjection.Proofs.Trap.Standing
import DelayInjection.Proofs.History.AccessLog
import DelayInjection.Proofs.Control.Sections
import DelayInjection.Proofs.Control.Effects
import DelayInjection.Proofs.Control.Runs
import DelayInjection.Proofs.Control.Access
import DelayInjection.Proofs.Control.Bookkeeping
import DelayInjection.Proofs.Detector
import DelayInjection.Proofs.Control.Parking
import DelayInjection.Proofs.Control.Slot
import DelayInjection.Proofs.Control.Learning
import DelayInjection.Proofs.Control.Identity
import DelayInjection.Proofs.Control.NearMiss
import DelayInjection.Proofs.Control.Recorded
import DelayInjection.Proofs.Control.Recording
import DelayInjection.Proofs.Control.Detection
import DelayInjection.Proofs.Persist.PlanLine
import DelayInjection.Proofs.Disk.Appending
import DelayInjection.Proofs.Persist.Batching
import DelayInjection.Proofs.Persist.HandOver
import DelayInjection.Proofs.Pattern
import DelayInjection.Proofs.Pattern.RegexText
import DelayInjection.Proofs.Plan.Indexing
import DelayInjection.Proofs.Plan.Grouping
import DelayInjection.Proofs.Plan.Replay
import DelayInjection.Proofs.Persist.BugLine
import DelayInjection.Proofs.Persist.Blacklist
import DelayInjection.Proofs.Config.RoundTrip
import DelayInjection.Proofs.Plan.Governing
import DelayInjection.Proofs.Disk.Changes
import DelayInjection.Proofs.Startup
import DelayInjection.Proofs.Control.Ordinary
import DelayInjection.Proofs.Control.Operations
import DelayInjection.Proofs.Control.Credit
import DelayInjection.Proofs.Control.Pruning
import DelayInjection.Proofs.Plan.Listing
import DelayInjection.Proofs.Plan.Merging
import DelayInjection.Proofs.Danger.History
import DelayInjection.Proofs.Danger.Levels
import DelayInjection.Proofs.Plan.Lookup
import DelayInjection.Proofs.Classifier
import DelayInjection.Proofs.Text.Numeral
import DelayInjection.Proofs.Persist.PlanPoint
import DelayInjection.Proofs.Text.Lines
import DelayInjection.Proofs.Persist.Distinct
import DelayInjection.Proofs.Persist.Loading
import DelayInjection.Proofs.Persist.Readers
import DelayInjection.Proofs.Plan.MergedListing
import DelayInjection.Proofs.Disk.Bytes
import DelayInjection.Proofs.Persist.Timing
import DelayInjection.Proofs.History.RecentThreads
import DelayInjection.Proofs.History.AccessWindows
import DelayInjection.Proofs.History.ThreadRecords
import DelayInjection.Proofs.Plan.Versions
import DelayInjection.Proofs.Plan.Memory
import DelayInjection.Proofs.Plan.Sharing
import DelayInjection.Proofs.Random
import DelayInjection.Proofs.Control.Counting
import DelayInjection.Proofs.Control.Unclaimed
import DelayInjection.Proofs.Decimal.Value
import DelayInjection.Proofs.Config.Validation
import DelayInjection.Proofs.Disk.Path
import DelayInjection.Proofs.Report.Naming
