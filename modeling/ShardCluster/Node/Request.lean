import ShardCluster.Node.Basic
/-! What clients and operators may ask of a node about the shape of the cluster. -/
namespace ShardCluster

inductive Request where
  | addPeer (peer : PeerId)
  | removePeer (peer : PeerId) (force : Bool)
  | createCollection (collection : String) (config : CollectionConfig)
  | deleteCollection (collection : String)
  | createShardKey (collection : String) (key : ShardKey)
  | deleteShardKey (collection : String) (key : ShardKey)
  | startResharding (collection : String) (request : ReshardingRequest)
  | commitRead (collection : String)
  | commitWrite (collection : String)
  | finishResharding (collection : String)
  | abortResharding (collection : String)
  | replicate (collection : String) (key : TransferKey) (method : TransferMethod)
  | abortTransfer (collection : String) (key : TransferKey)
  | dropReplica (collection : String) (shard : ShardId) (peer : PeerId)
  | setReplicaState (collection : String) (shard : ShardId) (peer : PeerId) (state : ReplicaState)
  deriving DecidableEq, Repr, Inhabited

namespace Request

/-- The entry that a request comes to, given what is committed. -/
def decide (config : NodeConfig) (now : Timestamp) (c : Cluster) : Request → Except Error Entry
  | addPeer peer => .ok (.addPeer peer)
  | removePeer peer force => .ok (.removePeer peer force)
  | createCollection name settings => do
    let placement ← match settings.method with
      | .auto =>
        Placement.roundRobin (Placement.consecutive 0 settings.shardNumber) c.peers.toList
          settings.replicationFactor
      | .custom => pure .empty
    return .createCollection name settings placement
  | deleteCollection name => .ok (.deleteCollection name)
  | createShardKey name key => do
    let coll ← c.collection name
    let first ← coll.nextShard
    if UInt32.size ≤ first.toNat + coll.config.shardNumber.toNat then
      throw .overflow
    let placement ← Placement.roundRobin
      (Placement.consecutive first coll.config.shardNumber) c.peers.toList
      coll.config.replicationFactor
    return .createShardKey name key placement
  | deleteShardKey name key => .ok (.deleteShardKey name key)
  | startResharding name request => return .startResharding (← c.plan name request config.removal now)
  | commitRead name => .ok (.commitRead name)
  | commitWrite name => .ok (.commitWrite name)
  | finishResharding name => .ok (.finishResharding name)
  | abortResharding name => do
    let _ ← c.collection name
    let _ ← Stage.next config.abortAfterReadCommit (c.stage? name) (.abort false)
    return .abortResharding name false "aborted by request"
  | replicate name key method => .ok (.startTransfer name { key, method })
  | abortTransfer name key => .ok (.abortTransfer name key)
  | dropReplica name shard peer => .ok (.dropReplica name shard peer)
  | setReplicaState name shard peer state => .ok (.setReplicaState name shard peer state)

end Request

def Node.handle (n : Node) (now : Timestamp) (r : Request) : Node × Except Error Unit :=
  n.commit .request (fun c => r.decide n.config now c)

end ShardCluster
