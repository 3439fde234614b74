import ShardCluster.Cluster.Basic
import ShardCluster.Config
/-! From a request to a plan. Every choice is made here, so that the entry which carries the plan
can be applied again anywhere. -/
namespace ShardCluster.Cluster

/-- The replica to copy a shard from, given the copies planned so far. -/
def sourceOf (shard : ShardId) (replicas : List Replica) (planned : List TransferKey) :
    Except Error PeerId :=
  match Replica.suggestSource replicas planned with
  | some peer => .ok peer
  | none => .error (.badRequest (.noActiveReplica shard))

/-- One copy out of every shard of the group into the new replica. -/
def gather (c : Cluster) (name : String) (shard : ShardId) (peer : PeerId)
    (planned : List TransferKey) : List ShardId → Except Error (List TransferKey)
  | [] => .ok planned
  | source :: rest => do
    let replicas ← c.replicas.shardReplicas name source
    let origin ← sourceOf source replicas planned
    c.gather name shard peer (planned ++ [⟨source, shard, origin, peer⟩]) rest

/-- One copy out of the leaving replica into every active replica of the other shards. -/
def scatter (c : Cluster) (name : String) (shard : ShardId) (peer : PeerId) :
    List ShardId → Except Error (List TransferKey)
  | [] => .ok []
  | target :: rest => do
    let replicas ← c.replicas.shardReplicas name target
    let receivers := replicas.filter (·.state == .active)
    if receivers.isEmpty then throw (.badRequest (.noActiveReplica target))
    let more ← c.scatter name shard peer rest
    return receivers.map (fun r => ⟨shard, target, peer, r.peer⟩) ++ more

def planUp (c : Cluster) (name : String) (coll : Collection) (group : List ShardId)
    (request : ReshardingRequest) : Except Error (ShardId × PeerId × List TransferKey) := do
  let shard ← match request.shard with
    | some s =>
      if coll.shardSet.contains s then throw (.badRequest (.shardInCollection s name)) else pure s
    | none => coll.nextShard
  let peer ← match request.peer with
    | some p => do c.requirePeer p; pure p
    | none => match c.leastLoaded name with
      | some p => pure p
      | none => throw (.badRequest .noPeers)
  return (shard, peer, ← c.gather name shard peer [] group)

/-- The shard that leaves a group when the request names none; `group` is ascending. -/
def choose (policy : RemovalPolicy) (group : List ShardId) : Except Error ShardId :=
  let chosen := match policy with
    | .last => group.getLast?
    | .first => group.head?
  match chosen with
  | some s => .ok s
  | none => .error (.badRequest .groupEmpty)

def planDown (c : Cluster) (name : String) (group : List ShardId) (request : ReshardingRequest)
    (policy : RemovalPolicy) : Except Error (ShardId × PeerId × List TransferKey) := do
  if group.length ≤ 1 then throw (.badRequest (.lastShard name))
  let shard ← match request.shard with
    | some s => if group.contains s then pure s else throw (.shardNotFound s)
    | none => choose policy group
  let replicas ← c.replicas.shardReplicas name shard
  let peer ← match request.peer with
    | some p => do
      c.requirePeer p
      let state ← c.replicas.state name shard p
      if state != .active then throw (.badRequest (.notActive shard p state))
      pure p
    | none => sourceOf shard replicas []
  return (shard, peer, ← c.scatter name shard peer (group.filter (· != shard)))

/-- The first transfer into each replica runs; the others wait for it. -/
def schedule (keys : List TransferKey) : List Transfer :=
  (keys.foldl
    (fun (done : List Transfer) key =>
      let busy := done.any (fun t => t.key.destination == key.destination)
      done ++ [{ key, method := .slice, status := if busy then .pending else .running }])
    [])

def plan (c : Cluster) (name : String) (request : ReshardingRequest) (policy : RemovalPolicy)
    (now : Timestamp) : Except Error Plan := do
  let coll ← c.collection name
  c.requireIdle name
  requireNoTransfer name coll
  let router ← coll.router request.key
  let group := router.shards
  let (shard, peer, keys) ← match request.direction with
    | .up => c.planUp name coll group request
    | .down => c.planDown name group request policy
  return {
    operation :=
      { collection := name, direction := request.direction, peer, shard, key := request.key
        createdAt := now }
    transfers := schedule keys }

end ShardCluster.Cluster
