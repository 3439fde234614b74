import ShardCluster.Node.Points
/-! A collection as seen from a node. -/
namespace ShardCluster

structure LocalShard where
  shard : ShardId
  key : Option ShardKey
  points : Nat
  state : ReplicaState
  deriving DecidableEq, Repr, Inhabited

structure RemoteShard where
  shard : ShardId
  key : Option ShardKey
  peer : PeerId
  state : ReplicaState
  deriving DecidableEq, Repr, Inhabited

structure TransferInfo where
  transfer : Transfer
  /-- Points copied so far, if the copy runs on this node. -/
  copied : Option Nat
  deriving DecidableEq, Repr, Inhabited

structure CollectionInfo where
  peer : PeerId
  shardCount : Nat
  localShards : List LocalShard
  remoteShards : List RemoteShard
  operation : Option Operation
  transfers : List TransferInfo
  deriving DecidableEq, Repr, Inhabited

namespace Node

/-- Count the points of local replicas; the first error ends it. -/
def countLocal (name : String) (coll : Collection) :
    FaultyStore → List Replica → FaultyStore × Except Error (List LocalShard)
  | s, [] => (s, .ok [])
  | s, r :: rest =>
    match s.count (r.location name) none with
    | (s, .error e) => (s, .error e)
    | (s, .ok points) =>
      let (s, more) := countLocal name coll s rest
      (s, more.map ({ shard := r.shard, key := coll.keyOf r.shard, points, state := r.state } :: ·))

def info (n : Node) (name : String) : Node × Except Error CollectionInfo :=
  let known := do
    let coll ← n.cluster.collection name
    return (coll, ← n.cluster.replicas.split name)
  match known with
  | .error e => (n, .error e)
  | .ok (coll, near, far) =>
    let (s, counted) := countLocal name coll n.plane.store near
    (n.setStore s, counted.map fun localShards =>
      { peer := n.config.peer
        shardCount := coll.shardSet.size
        localShards
        remoteShards := far.map fun r =>
          { shard := r.shard, key := coll.keyOf r.shard, peer := r.peer, state := r.state }
        operation := n.cluster.operation? name
        transfers := coll.transfers.map fun t =>
          { transfer := t, copied := (n.plane.progress (name, t.key)).map (·.points) } })

end Node
end ShardCluster
