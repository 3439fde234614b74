import ShardCluster.Collection
import ShardCluster.Effects
import ShardCluster.ReplicaTable
import ShardCluster.Transfer.Rules
/-! The replicated description of a cluster. It changes only by log entries. -/
namespace ShardCluster

structure Cluster where
  peers : SortedSet PeerId := .empty
  collections : SortedMap String Collection := .empty
  replicas : ReplicaTable
  /-- The live operation of each collection that has one. -/
  operations : SortedMap String Operation := .empty
  /-- Raised by every entry that schedules transfers. -/
  epoch : UInt64 := 0
  ringPositions : Nat
  deriving DecidableEq, Inhabited

namespace Cluster

def new (home : PeerId) (ringPositions : Nat) : Cluster :=
  { replicas := { home }, ringPositions }

def collection (c : Cluster) (name : String) : Except Error Collection :=
  match c.collections.get? name with
  | some coll => .ok coll
  | none => .error (.collectionNotFound name)

def operation? (c : Cluster) (name : String) : Option Operation := c.operations.get? name

def stage? (c : Cluster) (name : String) : Option Stage := (c.operation? name).map (·.stage)

/-- Transfers in flight; none for an unknown collection. -/
def transfers (c : Cluster) (name : String) : List Transfer :=
  match c.collections.get? name with
  | some coll => coll.transfers
  | none => []

def router (c : Cluster) (name : String) (key : Option ShardKey) : Except Error Router := do
  (← c.collection name).router key

def setCollection (c : Cluster) (name : String) (coll : Collection) : Cluster :=
  { c with collections := c.collections.insert name coll }

def setRouter (c : Cluster) (name : String) (key : Option ShardKey) (r : Router) :
    Except Error Cluster := do
  return c.setCollection name ((← c.collection name).setRouter key r)

def requirePeer (c : Cluster) (peer : PeerId) : Except Error Unit :=
  if c.peers.contains peer then .ok () else .error (.peerNotFound peer)

def requireIdle (c : Cluster) (name : String) : Except Error Unit :=
  match c.operation? name with
  | some op => .error (.operationInProgress name op.describe)
  | none => .ok ()

/-- A change of a ring waits until no transfer of the collection is in flight. -/
def requireNoTransfer (name : String) (coll : Collection) : Except Error Unit :=
  match coll.transfers with
  | t :: _ => .error (.transferConflict (.inFlight name t.key))
  | [] => .ok ()

/-- The peer with the fewest replicas of the collection, the lowest among equals. -/
def leastLoaded (c : Cluster) (name : String) : Option PeerId :=
  match c.peers.toList.map (fun p => (c.replicas.countOn name p, p)) with
  | [] => none
  | x :: rest => some (rest.foldl Replica.lighter x).2

end Cluster
end ShardCluster
