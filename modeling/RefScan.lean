import RefScan.Candidate
import RefScan.ClassPath
import RefScan.ClassPath.Source
import RefScan.Command
import RefScan.CommandLine
import RefScan.CommandLine.Reader
import RefScan.CompiledUnit
import RefScan.Config
import RefScan.Encoding
import RefScan.Exclusion
import RefScan.Failure
import RefScan.FileTree
import RefScan.Graph
import RefScan.Json
import RefScan.Main
import RefScan.Path
import RefScan.Scan.Asking
import RefScan.Scan.Options
import RefScan.Scan.Report
import RefScan.Scan.Walk
import RefScan.Settings
import RefScan.Source
import RefScan.Text
import RefScan.Text.Alnum
import RefScan.Text.Blank
import RefScan.Text.Utf16
import RefScan.Text.Utf8
import RefScan.Toml.Number
import RefScan.Toml.Quoted
import RefScan.Toml.Reader
import RefScan.Toml.Table
import RefScan.Toml.Value
import RefScan.TypeName
import RefScan.Universe
import RefScan.Proofs.Graph
import RefScan.Proofs.Graph.Listing
import RefScan.Proofs.Graph.Search
import RefScan.Proofs.Graph.Changes
import RefScan.Proofs.Steps
import RefScan.Proofs.Source
import RefScan.Proofs.Asking
import RefScan.Proofs.Walk.Answers
import RefScan.Proofs.Walk.Step
import RefScan.Proofs.Walk.Invariant
import RefScan.Proofs.Walk.Ends
import RefScan.Proofs.Walk.Forget
import RefScan.Proofs.Scan.Reachable
import RefScan.Proofs.Scan.Distance
import RefScan.Proofs.Scan.Recorded
import RefScan.Proofs.Candidate
import RefScan.Proofs.Encoding
import RefScan.Proofs.Candidate.Grammar
import RefScan.Proofs.Candidate.Pattern
import RefScan.Proofs.Candidate.Search
import RefScan.Proofs.Candidate.Turns
import RefScan.Proofs.Candidate.TypePath
import RefScan.Proofs.CompiledUnit
import RefScan.Proofs.Walk.Ledger
import RefScan.Proofs.Walk.Environment
import RefScan.Proofs.Walk.Coherence
import RefScan.Proofs.Scan.Order
import RefScan.Proofs.Scan.Failure
import RefScan.Proofs.Scan.Accounts
import RefScan.Proofs.Scan.Exclusion
import RefScan.Proofs.Scan.Noninterference
import RefScan.Proofs.Universe.History
import RefScan.Proofs.ClassPath
import RefScan.Proofs.Scan.Growth
import RefScan.Proofs.Scan.ClassPath
import RefScan.Proofs.Walk.Record
import RefScan.Proofs.Walk.Pool
import RefScan.Proofs.Scan.Batch
import RefScan.Proofs.Path
import RefScan.Proofs.FileTree
import RefScan.Proofs.ClassPath.Names
import RefScan.Proofs.ClassPath.Placement
import RefScan.Proofs.ClassPath.Listing
import RefScan.Proofs.Universe.Resolution
import RefScan.Proofs.CompiledUnit.Table
import RefScan.Proofs.Candidate.Image
import RefScan.Proofs.Text.Utf16
import RefScan.Proofs.Text.Offset
import RefScan.Proofs.Encoding.Label
import RefScan.Proofs.Scan.Bound
import RefScan.Proofs.CommandLine.Spelling
import RefScan.Proofs.CommandLine.RoundTrip
