import GraphClustering.Cluster.Consistency
import GraphClustering.Cluster.Diagram
import GraphClustering.Cluster.Digest
import GraphClustering.Cluster.Document
import GraphClustering.Cluster.Forest
import GraphClustering.Cluster.Postprocessing
import GraphClustering.Cluster.Recursive
import GraphClustering.CommandLine.Arguments
import GraphClustering.CommandLine.Folder
import GraphClustering.CommandLine.Options
import GraphClustering.CommandLine.Path
import GraphClustering.CommandLine.Run
import GraphClustering.Decimal.Binary64
import GraphClustering.Decimal.Rounded
import GraphClustering.Decimal.Scan
import GraphClustering.Decimal.Shape
import GraphClustering.Decimal.Shortest
import GraphClustering.Environment
import GraphClustering.Fault
import GraphClustering.Graph.Builder
import GraphClustering.Graph.Components
import GraphClustering.Graph.Frame
import GraphClustering.Graph.Ids
import GraphClustering.Graph.Position
import GraphClustering.Graph.RowChunks
import GraphClustering.Graph.Search
import GraphClustering.Graph.Store
import GraphClustering.Graph.Traversal
import GraphClustering.Graph.View
import GraphClustering.Json.Reader
import GraphClustering.Json.Value
import GraphClustering.Json.Writer
import GraphClustering.Log.Journal
import GraphClustering.Log.Level
import GraphClustering.Log.Record
import GraphClustering.Log.Template
import GraphClustering.Main
import GraphClustering.Number
import GraphClustering.Profile.Ledger
import GraphClustering.Profile.Program
import GraphClustering.Profile.Ranking
import GraphClustering.Profile.Report
import GraphClustering.Scalar
import GraphClustering.Settings.Basic
import GraphClustering.Settings.FromEnvironment
import GraphClustering.Spectral.Bisection
import GraphClustering.Spectral.Broadcast
import GraphClustering.Spectral.Capability
import GraphClustering.Spectral.Matrix
import GraphClustering.Spectral.Multiplier
import GraphClustering.Spectral.NormalizedAdjacency
import GraphClustering.Spectral.PowerIteration
import GraphClustering.Spectral.RowBlocks
import GraphClustering.Spectral.SignTrail
import GraphClustering.Spectral.StartVector
import GraphClustering.Table.Cells
import GraphClustering.Table.Read
import GraphClustering.Table.Rows
import GraphClustering.Table.Separator
import GraphClustering.Text.Blank
import GraphClustering.Text.Digit
import GraphClustering.Text.Printable
import GraphClustering.Text.Quoted
import GraphClustering.Text.Utf8
import GraphClustering.Proofs.Forest.Ancestry
import GraphClustering.Proofs.Forest.Rewiring
import GraphClustering.Proofs.Forest.Totals
import GraphClustering.Proofs.Graph.Restriction
import GraphClustering.Proofs.Graph.Partition
import GraphClustering.Proofs.Graph.Built
import GraphClustering.Proofs.Cluster.Budget
import GraphClustering.Proofs.Cluster.Conservation
import GraphClustering.Proofs.Cluster.Coverage
import GraphClustering.Proofs.Cluster.SecureRun
import GraphClustering.Proofs.Spectral.Signs
import GraphClustering.Proofs.Graph.Multigraph
import GraphClustering.Proofs.Cluster.Orderly
import GraphClustering.Proofs.Graph.EdgeFree
import GraphClustering.Proofs.Cluster.Weightless
import GraphClustering.Proofs.Cluster.Failures
import GraphClustering.Proofs.Cluster.Scattered
import GraphClustering.Proofs.Settings
import GraphClustering.Proofs.Spectral.Failures
import GraphClustering.Proofs.Cluster.Outcome
import GraphClustering.Proofs.Graph.Unaltered
import GraphClustering.Proofs.Graph.Batching
import GraphClustering.Proofs.Graph.Delivery
import GraphClustering.Proofs.Graph.Derived
import GraphClustering.Proofs.Graph.Lookup
import GraphClustering.Proofs.Graph.Incident
import GraphClustering.Proofs.Spectral.Failover
import GraphClustering.Proofs.Graph.Classes
import GraphClustering.Proofs.Forest.Operations
import GraphClustering.Proofs.Document.RoundTrip
import GraphClustering.Proofs.Cluster.Passes
import GraphClustering.Proofs.Cluster.Climbing
import GraphClustering.Proofs.Cluster.Eviction
import GraphClustering.Proofs.Cluster.Guarding
import GraphClustering.Proofs.Cluster.Lifting
import GraphClustering.Proofs.Cluster.Collapsing
import GraphClustering.Proofs.Decimal.Product
import GraphClustering.Proofs.Spectral.Streaks
import GraphClustering.Proofs.Spectral.Bisected
import GraphClustering.Proofs.Spectral.Tiling
import GraphClustering.Proofs.Document.Acceptance
import GraphClustering.Proofs.Document.Diagram
import GraphClustering.Proofs.Cluster.Digest
import GraphClustering.Proofs.Precedence
import GraphClustering.Proofs.Profile.Reports
import GraphClustering.Proofs.Cluster.Visits
import GraphClustering.Proofs.Cluster.Shares
import GraphClustering.Proofs.Forest.Tours
import GraphClustering.Proofs.Cluster.SettledTree
import GraphClustering.Proofs.Decimal.Sums
