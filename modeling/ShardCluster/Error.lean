import ShardCluster.Transfer.Basic
/-! Why a request, a log entry or a copy fails, and the wording and status of each cause. -/
namespace ShardCluster

inductive StorageFault where
  | unavailable (peer : PeerId)
  | timeout (peer : PeerId)
  | io (text : String)
  deriving DecidableEq, Repr, Inhabited

def StorageFault.message : StorageFault → String
  | unavailable peer => s!"peer {peer} unreachable"
  | timeout peer => s!"request to peer {peer} timed out"
  | io text => s!"storage io error: {text}"

/-- Requests that break a rule of the topology. -/
inductive Refusal where
  | peerExists (peer : PeerId)
  | peerHosts (peer : PeerId) (replicas : Nat)
  | noPeers
  | collectionExists (collection : String)
  | sizeNotPositive
  | placementEmpty
  | placementNotByKey
  | notCustom (collection : String)
  | keyExists (key : ShardKey)
  | keyPlacementEmpty
  | keyOnAuto (key : ShardKey)
  | keyRequired
  | shardExists (shard : ShardId)
  | shardInCollection (shard : ShardId) (collection : String)
  | shardOnRing (shard : ShardId)
  | lastOnRing
  | lastShard (collection : String)
  | groupEmpty
  | shardUnhosted (shard : ShardId)
  | noActiveReplica (shard : ShardId)
  | notActive (shard : ShardId) (peer : PeerId) (state : ReplicaState)
  | unsatisfiable (factor : UInt32) (peers : Nat)
  | methodReserved (method : TransferMethod)
  | invalidReplication (key : TransferKey)
  | sourceState (shard : ShardId) (peer : PeerId) (state : ReplicaState)
  | alreadyHosts (peer : PeerId) (shard : ShardId)
  | notRunning (key : TransferKey)
  | partOfResharding (key : TransferKey)
  | lastReplica (shard : ShardId)
  | managedReplica (shard : ShardId) (peer : PeerId)
  | replicaInOperation (shard : ShardId) (peer : PeerId) (operation : String)
  | noReadableReplica
  | other (text : String)
  deriving DecidableEq, Repr, Inhabited

def Refusal.message : Refusal → String
  | peerExists peer => s!"peer {peer} already exists"
  | peerHosts peer replicas => s!"peer {peer} still hosts {replicas} replicas"
  | noPeers => "cluster has no peers"
  | collectionExists collection => s!"collection {collection} already exists"
  | sizeNotPositive => "shard number and replication factor must be positive"
  | placementEmpty => "collection placement is empty"
  | placementNotByKey => "custom-sharded collections get their shards from shard keys"
  | notCustom collection => s!"collection {collection} does not use custom sharding"
  | keyExists key => s!"shard key {key.text} already exists"
  | keyPlacementEmpty => "shard key placement is empty"
  | keyOnAuto key => s!"shard key {key.text} given for an auto-sharded collection"
  | keyRequired => "shard key required for a custom-sharded collection"
  | shardExists shard => s!"shard {shard} already exists"
  | shardInCollection shard collection => s!"shard {shard} already exists in collection {collection}"
  | shardOnRing shard => s!"shard {shard} already on hash ring"
  | lastOnRing => "cannot remove the last shard from the hash ring"
  | lastShard collection => s!"cannot remove the last shard of collection {collection}"
  | groupEmpty => "shard group is empty"
  | shardUnhosted shard => s!"shard {shard} has no replicas"
  | noActiveReplica shard => s!"shard {shard} has no active replica"
  | notActive shard peer state => s!"replica of shard {shard} on peer {peer} is {state.text}, not active"
  | unsatisfiable factor peers =>
    s!"replication factor {factor} is not satisfiable with {peers} peers"
  | methodReserved method => s!"{method.text} transfers are scheduled by resharding"
  | invalidReplication key => s!"invalid replication {key.text}"
  | sourceState shard peer state => s!"source replica of shard {shard} on peer {peer} is {state.text}"
  | alreadyHosts peer shard => s!"peer {peer} already hosts shard {shard}"
  | notRunning key => s!"transfer {key.text} is not running"
  | partOfResharding key =>
    s!"transfer {key.text} belongs to a resharding operation, abort the operation instead"
  | lastReplica shard => s!"cannot drop the last replica of shard {shard}"
  | managedReplica shard peer => s!"replica of shard {shard} on peer {peer} is managed by resharding"
  | replicaInOperation shard peer operation =>
    s!"replica of shard {shard} on peer {peer} is part of {operation}"
  | noReadableReplica => "no readable replica"
  | other text => text

/-- Requests that collide with a transfer. -/
inductive Conflict where
  | inFlight (collection : String) (key : TransferKey)
  | duplicate (key : TransferKey)
  | overlaps (key present : TransferKey)
  | usesReplica (shard : ShardId) (peer : PeerId) (key : TransferKey)
  | other (text : String)
  deriving DecidableEq, Repr, Inhabited

def Conflict.message : Conflict → String
  | inFlight collection key => s!"collection {collection} has transfer {key.text} in flight"
  | duplicate key => s!"transfer {key.text} already exists"
  | overlaps key present => s!"transfer {key.text} overlaps transfer {present.text}"
  | usesReplica shard peer key =>
    s!"replica of shard {shard} on peer {peer} is used by transfer {key.text}"
  | other text => text

/-- Why a transfer gave up. -/
inductive TransferFailure where
  | exhausted (step : String) (attempts : Nat) (cause : String)
  | missingPoints (missing expected : Nat) (destination : Location)
  | reported (key : TransferKey) (reason : String)
  | other (text : String)
  deriving DecidableEq, Repr, Inhabited

def TransferFailure.message : TransferFailure → String
  | exhausted step attempts cause => s!"{step} failed after {attempts} attempts: {cause}"
  | missingPoints missing expected destination =>
    s!"verification failed: {missing} of {expected} points missing on {destination.text}"
  | reported key reason => s!"{key.text}: {reason}"
  | other text => text

/-- States that the rules exclude, and faults of the surroundings. -/
inductive Defect where
  | ringBusy
  | ringIdle
  | ringEmpty
  | groupMissing
  | operationMissing (collection : String)
  | indexZero
  | indexMissing (index : UInt64)
  | other (text : String)
  deriving DecidableEq, Repr, Inhabited

def Defect.message : Defect → String
  | ringBusy => "hash ring is already resharding"
  | ringIdle => "hash ring is not resharding"
  | ringEmpty => "hash ring is empty"
  | groupMissing => "auto-sharded collection has no shard group"
  | operationMissing collection => s!"no operation for collection {collection}"
  | indexZero => "commit index starts at 1"
  | indexMissing index => s!"no log entry at index {index}"
  | other text => text

inductive Error where
  | invalidTransition (action stage : String)
  | operationInProgress (collection operation : String)
  | collectionNotFound (collection : String)
  | shardKeyNotFound (key : ShardKey)
  | peerNotFound (peer : PeerId)
  | shardNotFound (shard : ShardId)
  | replicaNotFound (shard : ShardId) (peer : PeerId)
  | transferNotFound (transfer : String)
  | staleReport (transfer : String) (reported current : UInt64)
  | transferConflict (why : Conflict)
  | transferFailed (why : TransferFailure)
  | topologyConflict (text : String)
  | badRequest (why : Refusal)
  | storage (fault : StorageFault)
  | serialization (text : String)
  | cancelled
  | internal (why : Defect)
  /-- The numbers of shards are used up: no answer of the cluster, the computation ends there. -/
  | overflow
  deriving DecidableEq, Repr, Inhabited

namespace Error

def message : Error → String
  | invalidTransition action stage =>
    s!"wrong resharding stage: {action} is not allowed in stage {stage}"
  | operationInProgress collection operation =>
    s!"resharding operation already in progress for collection {collection}: {operation}"
  | collectionNotFound collection => s!"collection not found: {collection}"
  | shardKeyNotFound key => s!"shard key not found: {key.text}"
  | peerNotFound peer => s!"peer not found: {peer}"
  | shardNotFound shard => s!"shard not found: {shard}"
  | replicaNotFound shard peer => s!"replica of shard {shard} not found on peer {peer}"
  | transferNotFound transfer => s!"shard transfer not found: {transfer}"
  | staleReport transfer reported current =>
    s!"stale report for shard transfer {transfer}: reported epoch {reported}, current epoch {current}"
  | transferConflict why => s!"shard transfer conflict: {why.message}"
  | transferFailed why => s!"shard transfer failed: {why.message}"
  | topologyConflict text => s!"topology conflict: {text}"
  | badRequest why => s!"bad request: {why.message}"
  | storage fault => s!"storage error: {fault.message}"
  | serialization text => s!"serialization error: {text}"
  | cancelled => "operation cancelled"
  | internal why => s!"internal error: {why.message}"
  | overflow => "attempt to add with overflow"

/-- 400 for a request that is wrong here, 404 for a missing thing, 500 for a failure. -/
def status : Error → Nat
  | invalidTransition .. | operationInProgress .. | transferConflict _ | staleReport ..
  | topologyConflict _ | badRequest _ => 400
  | collectionNotFound _ | shardKeyNotFound _ | peerNotFound _ | shardNotFound _
  | replicaNotFound .. | transferNotFound _ => 404
  | transferFailed _ | storage _ | serialization _ | cancelled | internal _
  | overflow => 500

/-- Only faults of the storage may pass by themselves. -/
def retryable : Error → Bool
  | storage _ => true
  | _ => false

end Error
end ShardCluster
