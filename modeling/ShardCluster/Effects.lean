import ShardCluster.Entry
import ShardCluster.Router
import ShardCluster.Topology
/-! What is left to do, outside the metadata, once a log entry is committed. -/
namespace ShardCluster

/-- A copy to be made: the points of the slice, or all, from the one end of a transfer to the other. -/
structure CopyRequest where
  collection : String
  key : TransferKey
  epoch : UInt64
  slice : Option Slice
  deriving DecidableEq, Inhabited

inductive Cleanup where
  | drop (location : Location)
  | delete (location : Location) (slice : Slice)
  deriving DecidableEq, Inhabited

structure Aborted where
  operation : Operation
  forced : Bool
  reason : String
  deriving DecidableEq, Repr, Inhabited

/-- Carried out in the order of the fields. -/
structure Effects where
  cancel : List (String × TransferKey) := []
  cleanup : List Cleanup := []
  spawn : List CopyRequest := []
  events : List TopologyEvent := []
  started : List Operation := []
  finished : List Operation := []
  aborted : List Aborted := []
  /-- Transfers that left the table by a report, with their last status. -/
  completed : List (String × Transfer) := []
  deriving DecidableEq, Inhabited

namespace Effects

def append (a b : Effects) : Effects where
  cancel := a.cancel ++ b.cancel
  cleanup := a.cleanup ++ b.cleanup
  spawn := a.spawn ++ b.spawn
  events := a.events ++ b.events
  started := a.started ++ b.started
  finished := a.finished ++ b.finished
  aborted := a.aborted ++ b.aborted
  completed := a.completed ++ b.completed

instance : Append Effects := ⟨append⟩

def cancelling (collection : String) (transfers : List Transfer) : Effects :=
  { cancel := transfers.map (fun t => (collection, t.key)) }

def dropping (collection : String) (replicas : List Replica) : Effects :=
  { cleanup := replicas.map (fun r => .drop (r.location collection)) }

def deleting (collection : String) (slice : Slice) (replicas : List Replica) : Effects :=
  { cleanup := replicas.map (fun r => .delete (r.location collection) slice) }

end Effects
end ShardCluster
