import ShardCluster.Operation
/-! Log entries. Each carries all that is needed to apply it again. -/
namespace ShardCluster

/-- An operation and the transfers that fill its replicas. -/
structure Plan where
  operation : Operation
  transfers : List Transfer
  deriving DecidableEq, Repr, Inhabited

inductive Entry where
  | addPeer (peer : PeerId)
  | removePeer (peer : PeerId) (force : Bool)
  | createCollection (collection : String) (config : CollectionConfig) (placement : Placement)
  | deleteCollection (collection : String)
  | createShardKey (collection : String) (key : ShardKey) (placement : Placement)
  | deleteShardKey (collection : String) (key : ShardKey)
  | startResharding (plan : Plan)
  | commitRead (collection : String)
  | commitWrite (collection : String)
  | finishResharding (collection : String)
  | abortResharding (collection : String) (forced : Bool) (reason : String)
  | startTransfer (collection : String) (transfer : Transfer)
  | finishTransfer (collection : String) (key : TransferKey) (epoch : UInt64)
  | failTransfer (collection : String) (key : TransferKey) (epoch : UInt64) (reason : String)
  | abortTransfer (collection : String) (key : TransferKey)
  | dropReplica (collection : String) (shard : ShardId) (peer : PeerId)
  | setReplicaState (collection : String) (shard : ShardId) (peer : PeerId) (state : ReplicaState)
  deriving DecidableEq, Inhabited

namespace Entry

def name : Entry → String
  | addPeer .. => "add_peer"
  | removePeer .. => "remove_peer"
  | createCollection .. => "create_collection"
  | deleteCollection .. => "delete_collection"
  | createShardKey .. => "create_shard_key"
  | deleteShardKey .. => "delete_shard_key"
  | startResharding .. => "start_resharding"
  | commitRead .. => "commit_read_hash_ring"
  | commitWrite .. => "commit_write_hash_ring"
  | finishResharding .. => "finish_resharding"
  | abortResharding .. => "abort_resharding"
  | startTransfer .. => "start_transfer"
  | finishTransfer .. => "finish_transfer"
  | failTransfer .. => "fail_transfer"
  | abortTransfer .. => "abort_transfer"
  | dropReplica .. => "drop_replica"
  | setReplicaState .. => "set_replica_state"

/-- The collection that the entry is about; peers belong to none. -/
def collection? : Entry → Option String
  | addPeer .. | removePeer .. => none
  | startResharding plan => some plan.operation.collection
  | createCollection c .. | deleteCollection c | createShardKey c .. | deleteShardKey c _
  | commitRead c | commitWrite c | finishResharding c | abortResharding c .. | startTransfer c _
  | finishTransfer c .. | failTransfer c .. | abortTransfer c _ | dropReplica c ..
  | setReplicaState c .. => some c

end Entry
end ShardCluster
