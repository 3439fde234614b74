import ShardCluster.Bytes
import ShardCluster.Cluster.Apply
import ShardCluster.Cluster.Basic
import ShardCluster.Cluster.Planning
import ShardCluster.Cluster.Resharding
import ShardCluster.Cluster.Shape
import ShardCluster.Cluster.Transfers
import ShardCluster.Collection
import ShardCluster.Config
import ShardCluster.Copy.DataPlane
import ShardCluster.Copy.Task
import ShardCluster.Decimal.Reader
import ShardCluster.Decimal.Shortest
import ShardCluster.Effects
import ShardCluster.Entry
import ShardCluster.Error
import ShardCluster.Hash.Xxh64
import ShardCluster.Log
import ShardCluster.Metrics.Basic
import ShardCluster.Metrics.Counter
import ShardCluster.Metrics.Exposition
import ShardCluster.Metrics.Histogram
import ShardCluster.Node.Basic
import ShardCluster.Node.Info
import ShardCluster.Node.Points
import ShardCluster.Node.Request
import ShardCluster.Operation
import ShardCluster.Placement
import ShardCluster.Point
import ShardCluster.ReplicaTable
import ShardCluster.Ring
import ShardCluster.Router
import ShardCluster.Shard
import ShardCluster.SortedMap.Basic
import ShardCluster.Stage
import ShardCluster.Store.Basic
import ShardCluster.Store.Faults
import ShardCluster.Text.Hex
import ShardCluster.Text.Utf8
import ShardCluster.Time
import ShardCluster.Topology
import ShardCluster.Transfer.Basic
import ShardCluster.Transfer.Rules
import ShardCluster.Wire.Entry
import ShardCluster.Wire.Format
import ShardCluster.Cluster.History
import ShardCluster.Proofs.SortedMap.Lookup
import ShardCluster.Proofs.ReplicaTable.Layout
import ShardCluster.Proofs.ReplicaTable.Batch
import ShardCluster.Proofs.Ring.Movement
import ShardCluster.Proofs.Cluster.Face
import ShardCluster.Proofs.Cluster.Change
import ShardCluster.Proofs.Cluster.Redone
import ShardCluster.Proofs.Cluster.Resharding
import ShardCluster.Proofs.Cluster.Transfers
import ShardCluster.Proofs.Cluster.Shape
import ShardCluster.Proofs.Cluster.Apply
import ShardCluster.Proofs.Cluster.RingAgreement
import ShardCluster.Proofs.Cluster.Planning
import ShardCluster.Proofs.Cluster.Fit
import ShardCluster.Proofs.Cluster.TransfersFit
import ShardCluster.Proofs.Cluster.Rollback
import ShardCluster.Proofs.Copy.Turn
import ShardCluster.Proofs.Copy.Plane
import ShardCluster.Proofs.Node.Runs
import ShardCluster.Proofs.Text.Utf8
import ShardCluster.Proofs.Wire.Format
import ShardCluster.Proofs.Wire.Entry
import ShardCluster.Proofs.Cluster.Forward
import ShardCluster.Proofs.Cluster.Copies
import ShardCluster.Proofs.Copy.Stream
import ShardCluster.Proofs.Node.Quiet
import ShardCluster.Proofs.Node.Recovery
import ShardCluster.Proofs.Cluster.Epochs
import ShardCluster.Proofs.Cluster.ForcedAborts
import ShardCluster.Proofs.Cluster.Groups
import ShardCluster.Proofs.Cluster.Deletions
import ShardCluster.Proofs.Cluster.Removals
import ShardCluster.Proofs.Cluster.References
import ShardCluster.Proofs.Cluster.Receivers
import ShardCluster.Proofs.Cluster.Defects
import ShardCluster.Proofs.Ring.Sited
import ShardCluster.Proofs.Cluster.Rings
import ShardCluster.Proofs.Cluster.PlanStart
import ShardCluster.Proofs.Cluster.PlannedMoves
import ShardCluster.Proofs.Transfer.Queue
import ShardCluster.Proofs.Cluster.Queue
import ShardCluster.Proofs.Cluster.Progress
import ShardCluster.Proofs.Cluster.RoundTrip
import ShardCluster.Proofs.Cluster.Graft
import ShardCluster.Proofs.Cluster.Stamps
import ShardCluster.Proofs.Cluster.Within
import ShardCluster.Proofs.Cluster.Locality
import ShardCluster.Proofs.Wire.Reading
import ShardCluster.Proofs.Wire.Canonical
import ShardCluster.Proofs.Cluster.Readable
import ShardCluster.Proofs.Cluster.Installed
import ShardCluster.Proofs.Router.Moves
import ShardCluster.Proofs.Cluster.Drain
import ShardCluster.Proofs.Cluster.Cleanups
import ShardCluster.Proofs.Copy.Step
import ShardCluster.Proofs.Copy.Lapses
import ShardCluster.Proofs.Copy.Batches
import ShardCluster.Proofs.Copy.Retried
import ShardCluster.Proofs.Router.Coverage
import ShardCluster.Proofs.Ring.Forgetful
import ShardCluster.Proofs.Store.Paging
import ShardCluster.Proofs.Metrics.Records
import ShardCluster.Proofs.Cluster.Turnover
import ShardCluster.Proofs.Copy.Counts
import ShardCluster.Proofs.Node.Balance
import ShardCluster.Proofs.ReplicaTable.Flat
import ShardCluster.Proofs.ReplicaTable.Calls
import ShardCluster.Proofs.Placement.RoundRobin
import ShardCluster.Proofs.Cluster.Founding
