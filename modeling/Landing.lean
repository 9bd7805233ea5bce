import Landing.Table
import Landing.Text.Hex
import Landing.Text.Blank
import Landing.Text.Layout
import Landing.Json
import Landing.Json.Printer
import Landing.Json.Reader
import Landing.Json.Record
import Landing.Sha256
import Landing.Commit.Id
import Landing.Tree
import Landing.Tree.Merge
import Landing.Commit
import Landing.Branch
import Landing.Change
import Landing.Store.Error
import Landing.Submission.Problem
import Landing.Submission.Failure
import Landing.Event
import Landing.Event.Bus
import Landing.World
import Landing.World.Snapshot
import Landing.Policy.Strategy
import Landing.Policy
import Landing.Submission.BranchState
import Landing.Submission.Signal
import Landing.Store.Call
import Landing.Store.Answer
import Landing.Program
import Landing.History
import Landing.History.Walk
import Landing.History.ParentsFirst
import Landing.Submission.Planning
import Landing.Submission.Closure
import Landing.Submission.Batch
import Landing.Submission.Validation
import Landing.Submission.BranchPlan
import Landing.Submission.Plan
import Landing.Submission.Transaction
import Landing.Submission.Apply
import Landing.Archive.Bundle
import Landing.Archive.EntryPath
import Landing.Archive.Field
import Landing.Archive.Tar
import Landing.Archive.Gzip
import Landing.Archive
import Landing.Submission.Engine
import Landing.Submission.Record
import Landing.Store.Backend
import Landing.Service
import Landing.Verbosity
import Landing.Text.Numeral
import Landing.Toml
import Landing.Toml.Scalar
import Landing.Toml.Reader
import Landing.Policy.File
import Landing.CommandLine.Invocation
import Landing.CommandLine.Complaint
import Landing.CommandLine.Listing
import Landing.CommandLine.Files
import Landing.CommandLine
import Landing.Main
import Landing.Proofs.Ancestry
import Landing.Proofs.Archive.Container
import Landing.Proofs.Archive.Names
import Landing.Proofs.Archive.Reader
import Landing.Proofs.Archive.RoundTrip
import Landing.Proofs.Commit.Canonical
import Landing.Proofs.Concurrency.Lineage
import Landing.Proofs.Concurrency.Merges
import Landing.Proofs.Concurrency.Pool
import Landing.Proofs.Concurrency.Records
import Landing.Proofs.Concurrency.Reports
import Landing.Proofs.Concurrency.Schedule
import Landing.Proofs.History.Ending
import Landing.Proofs.History.Faithful
import Landing.Proofs.History.Generations
import Landing.Proofs.History.Layers
import Landing.Proofs.History.MergeBase
import Landing.Proofs.History.Overlay
import Landing.Proofs.History.ParentsFirst
import Landing.Proofs.History.Pruning
import Landing.Proofs.History.Resolution
import Landing.Proofs.History.Topological
import Landing.Proofs.History.Walk
import Landing.Proofs.Json.Layout
import Landing.Proofs.Json.Record
import Landing.Proofs.Program.Budget
import Landing.Proofs.Program.Ending
import Landing.Proofs.Program.Failing
import Landing.Proofs.Program.Inquiry
import Landing.Proofs.Program.Returning
import Landing.Proofs.Program.Scope
import Landing.Proofs.Program.Study
import Landing.Proofs.Program.Trace
import Landing.Proofs.Store.Abreast
import Landing.Proofs.Store.Calm
import Landing.Proofs.Store.Effects
import Landing.Proofs.Store.Faults
import Landing.Proofs.Store.Passing
import Landing.Proofs.Store.Trial
import Landing.Proofs.Submission.Announcement
import Landing.Proofs.Submission.Apply
import Landing.Proofs.Submission.Atomicity
import Landing.Proofs.Submission.Batch
import Landing.Proofs.Submission.BranchPlan
import Landing.Proofs.Submission.Budget
import Landing.Proofs.Submission.Bundles
import Landing.Proofs.Submission.Circles
import Landing.Proofs.Submission.Closure
import Landing.Proofs.Submission.Conduct
import Landing.Proofs.Submission.Countdown
import Landing.Proofs.Submission.Coverage
import Landing.Proofs.Submission.Dependencies
import Landing.Proofs.Submission.Disclosure
import Landing.Proofs.Submission.Halting
import Landing.Proofs.Submission.Independence
import Landing.Proofs.Submission.Integration
import Landing.Proofs.Submission.Integrity
import Landing.Proofs.Submission.Isolation
import Landing.Proofs.Submission.LeastClosure
import Landing.Proofs.Submission.LeastOrder
import Landing.Proofs.Submission.Leftovers
import Landing.Proofs.Submission.Locality
import Landing.Proofs.Submission.Mention
import Landing.Proofs.Submission.MergeChain
import Landing.Proofs.Submission.Outcome
import Landing.Proofs.Submission.Plan
import Landing.Proofs.Submission.Preview
import Landing.Proofs.Submission.Publication
import Landing.Proofs.Submission.Recovery
import Landing.Proofs.Submission.Reliance
import Landing.Proofs.Submission.Report
import Landing.Proofs.Submission.Review
import Landing.Proofs.Submission.Rollback
import Landing.Proofs.Submission.Stale
import Landing.Proofs.Submission.Submit
import Landing.Proofs.Submission.Validation
import Landing.Proofs.Submission.Verdict
import Landing.Proofs.Text.Octets
import Landing.Proofs.Tree.Merge
import Landing.Proofs.World.Numbers
import Landing.Proofs.World.Refs
import Landing.Proofs.World.Snapshot
