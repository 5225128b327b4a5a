import StreamGraph.Main
import StreamGraph.Message.Script
import StreamGraph.Proofs.Sorting
import StreamGraph.Proofs.Lockstep
import StreamGraph.Proofs.Message.Traffic
import StreamGraph.Proofs.Collective
import StreamGraph.Proofs.CallSequence
import StreamGraph.Proofs.Routing
import StreamGraph.Proofs.Routing.Refusal
import StreamGraph.Proofs.Dataset.Distribution
import StreamGraph.Proofs.StreamOrder
import StreamGraph.Proofs.Merge
import StreamGraph.Proofs.Division
import StreamGraph.Proofs.Shard.History
import StreamGraph.Proofs.Merge.Order
import StreamGraph.Proofs.Cluster
import StreamGraph.Proofs.Cluster.Atomicity
import StreamGraph.Proofs.Trial.Batch
import StreamGraph.Proofs.Trial.RankCount
import StreamGraph.Proofs.Analytics.Components
import StreamGraph.Proofs.Analytics.Levels
import StreamGraph.Proofs.Analytics.ShortestPaths
import StreamGraph.Proofs.SourcePicker
import StreamGraph.Proofs.Analytics.Stages
import StreamGraph.Proofs.Analysis
import StreamGraph.Proofs.Trial.Lockstep
import StreamGraph.Proofs.Merge.Totals
import StreamGraph.Proofs.Merge.BulkLoad
import StreamGraph.Proofs.Merge.Refusal
import StreamGraph.Proofs.Dataset.Positions
import StreamGraph.Proofs.Text.Decimal
import StreamGraph.Proofs.Text.Pieces
import StreamGraph.Proofs.Dataset.Grammar
import StreamGraph.Proofs.Dataset.Packed
import StreamGraph.Proofs.Message.Framing
import StreamGraph.Proofs.Trial.Loading
import StreamGraph.Proofs.Cluster.Growth
import StreamGraph.Proofs.Cluster.Census
import StreamGraph.Proofs.Retention
import StreamGraph.Proofs.Trial.Balance
import StreamGraph.Proofs.Analytics.Ways
import StreamGraph.Proofs.Query.Ranking
import StreamGraph.Proofs.SourcePicker.History
import StreamGraph.Proofs.Analytics.Betweenness
import StreamGraph.Proofs.Snapshot.Rows
import StreamGraph.Proofs.Analytics.Coloring
import StreamGraph.Proofs.Analytics.PageRank
import StreamGraph.Proofs.Routing.Runs
import StreamGraph.Proofs.Message.Channels
import StreamGraph.Proofs.Collective.Pieces
import StreamGraph.Proofs.Dataset.Admission
