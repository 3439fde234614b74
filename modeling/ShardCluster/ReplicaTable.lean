import ShardCluster.Error
/-! The replicas of every collection: by shard, then by peer. A shard without replicas has no entry. -/
namespace ShardCluster

abbrev ShardReplicas := SortedMap PeerId ReplicaState
abbrev CollectionReplicas := SortedMap ShardId ShardReplicas

structure ReplicaTable where
  /-- The peer whose replicas are local. -/
  home : PeerId
  collections : SortedMap String CollectionReplicas := .empty
  deriving DecidableEq, Inhabited

namespace ReplicaTable

def ofShard (shard : ShardId) (peers : ShardReplicas) : List Replica :=
  peers.entries.map (fun e => ⟨shard, e.1, e.2⟩)

/-- Ordered by shard, then by peer. -/
def flatten (shards : CollectionReplicas) : List Replica :=
  shards.entries.flatMap (fun e => ofShard e.1 e.2)

def shardsOf (t : ReplicaTable) (collection : String) : Except Error CollectionReplicas :=
  match t.collections.get? collection with
  | some shards => .ok shards
  | none => .error (.collectionNotFound collection)

def replicas (t : ReplicaTable) (collection : String) : Except Error (List Replica) :=
  return flatten (← t.shardsOf collection)

/-- Local and remote replicas. -/
def split (t : ReplicaTable) (collection : String) : Except Error (List Replica × List Replica) :=
  return (flatten (← t.shardsOf collection)).partition (·.peer == t.home)

def shardReplicas (t : ReplicaTable) (collection : String) (shard : ShardId) :
    Except Error (List Replica) := do
  match (← t.shardsOf collection).get? shard with
  | some peers => return ofShard shard peers
  | none => throw (.shardNotFound shard)

def state (t : ReplicaTable) (collection : String) (shard : ShardId) (peer : PeerId) :
    Except Error ReplicaState := do
  match ((← t.shardsOf collection).get? shard).bind (·.get? peer) with
  | some state => return state
  | none => throw (.replicaNotFound shard peer)

def contains (t : ReplicaTable) (collection : String) (shard : ShardId) (peer : PeerId) : Bool :=
  (t.state collection shard peer).toBool

/-- How many shards of the collection the peer hosts. -/
def countOn (t : ReplicaTable) (collection : String) (peer : PeerId) : Nat :=
  match t.collections.get? collection with
  | some shards => (shards.values.filter (·.contains peer)).length
  | none => 0

/-- Every replica that the peer hosts, by collection, then by shard. -/
def onPeer (t : ReplicaTable) (peer : PeerId) : List (String × Replica) :=
  t.collections.entries.flatMap (fun e =>
    ((flatten e.2).filter (·.peer == peer)).map (fun r => (e.1, r)))

def register (t : ReplicaTable) (collection : String) : ReplicaTable :=
  if t.collections.contains collection then t
  else { t with collections := t.collections.insert collection .empty }

/-- Forget a collection; returns the replicas that it had. -/
def removeCollection (t : ReplicaTable) (collection : String) : ReplicaTable × List Replica :=
  match t.collections.get? collection with
  | some shards => ({ t with collections := t.collections.erase collection }, flatten shards)
  | none => (t, [])

def putShards (t : ReplicaTable) (collection : String) (shards : CollectionReplicas) : ReplicaTable :=
  { t with collections := t.collections.insert collection shards }

/-- Add a replica, or overwrite the state of one that is there. -/
def insert (t : ReplicaTable) (collection : String) (shard : ShardId) (peer : PeerId)
    (state : ReplicaState) : Except Error ReplicaTable := do
  let shards ← t.shardsOf collection
  let peers := (shards.get? shard).getD .empty
  return t.putShards collection (shards.insert shard (peers.insert peer state))

/-- Change the state of a replica; returns the previous one. -/
def setState (t : ReplicaTable) (collection : String) (shard : ShardId) (peer : PeerId)
    (state : ReplicaState) : Except Error (ReplicaTable × ReplicaState) := do
  let previous ← t.state collection shard peer
  let shards ← t.shardsOf collection
  return (t.putShards collection (shards.update shard (·.insert peer state)), previous)

/-- Remove a replica, and the entry of its shard with the last one; returns its state. -/
def remove (t : ReplicaTable) (collection : String) (shard : ShardId) (peer : PeerId) :
    Except Error (ReplicaTable × ReplicaState) := do
  let previous ← t.state collection shard peer
  let shards ← t.shardsOf collection
  let peers := ((shards.get? shard).getD .empty).erase peer
  let rest := if peers.isEmpty then shards.erase shard else shards.insert shard peers
  return (t.putShards collection rest, previous)

/-- Change the state of a replica, or remove it; returns the previous state. -/
def edit (t : ReplicaTable) (collection : String) (shard : ShardId) (peer : PeerId) :
    Option ReplicaState → Except Error (ReplicaTable × ReplicaState)
  | some state => t.setState collection shard peer state
  | none => t.remove collection shard peer

/-- Remove every replica of a shard; returns them. -/
def removeShard (t : ReplicaTable) (collection : String) (shard : ShardId) :
    Except Error (ReplicaTable × List Replica) := do
  let shards ← t.shardsOf collection
  let removed := match shards.get? shard with
    | some peers => ofShard shard peers
    | none => []
  return (t.putShards collection (shards.erase shard), removed)

end ReplicaTable
end ShardCluster
