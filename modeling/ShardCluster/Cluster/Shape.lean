import ShardCluster.Cluster.Transfers
/-! Entries that change the shape of a cluster: its peers, collections and shard keys. A deletion
first aborts every live operation that needs what goes. -/
namespace ShardCluster.Cluster

def addPeer (c : Cluster) (peer : PeerId) : Except Error (Cluster × Effects) :=
  if c.peers.contains peer then .error (.badRequest (.peerExists peer))
  else .ok ({ c with peers := SortedSet.add c.peers peer }, {})

/-- Whether the live operation needs the peer. -/
def dependsOn (c : Cluster) (op : Operation) (peer : PeerId) : Bool :=
  let filled := match c.replicas.replicas op.collection with
    | .ok replicas => replicas.any (fun r => r.peer == peer && r.state == .resharding)
    | .error _ => false
  op.involves peer || filled ||
    (c.transfers op.collection).any (fun t => t.resharding && t.key.involves peer)

/-- The collections whose live operation cannot outlast the event. -/
def affected (c : Cluster) : TopologyEvent → List String
  | .collectionDeleted name => ((c.operation? name).map (·.collection)).toList
  | .shardKeyDeleted name key =>
    (((c.operation? name).filter (·.key == some key)).map (·.collection)).toList
  | .peerRemoved peer _ =>
    (c.operations.values.filter (c.dependsOn · peer)).map (·.collection)

def rollBackAll (c : Cluster) (reason : String) : List String → Except Error (Cluster × Effects)
  | [] => .ok (c, {})
  | name :: rest => do
    let (c, first) ← c.rollBack name true reason
    let (c, more) ← c.rollBackAll reason rest
    return (c, first ++ more)

def forceAborts (c : Cluster) (event : TopologyEvent) : Except Error (Cluster × Effects) :=
  c.rollBackAll (Error.topologyConflict event.describe).message (c.affected event)

/-- Take every transfer that involves the peer out of the tables. Returns the keys taken, and those
of incomplete replicas that other peers are left with. -/
def dropTransfersOf (c : Cluster) (peer : PeerId) :
    Cluster × List (String × TransferKey) × List (String × TransferKey) :=
  let taken := c.collections.entries.flatMap (fun e =>
    (e.2.transfers.filter (·.key.involves peer)).map (fun t => (e.1, t.key)))
  ({ c with collections := c.collections.map (fun _ coll => (coll.take (·.key.involves peer)).1) },
    taken, taken.filter (·.2.target != peer))

def removeReplicas (table : ReplicaTable) :
    List (String × ShardId × PeerId) → Except Error ReplicaTable
  | [] => .ok table
  | (name, shard, peer) :: rest => do
    let (table, _) ← table.remove name shard peer
    removeReplicas table rest

def removePeer (c : Cluster) (peer : PeerId) (force : Bool) : Except Error (Cluster × Effects) := do
  c.requirePeer peer
  let hosted := c.replicas.onPeer peer
  if !force && !hosted.isEmpty then throw (.badRequest (.peerHosts peer hosted.length))
  let event := TopologyEvent.peerRemoved peer force
  let (c, aborts) ← c.forceAborts event
  let (c, cancel, stranded) := c.dropTransfersOf peer
  let table ← removeReplicas c.replicas
    (stranded.map (fun e => (e.1, e.2.toShard, e.2.target)))
  let hosted := table.onPeer peer
  let table ← removeReplicas table (hosted.map (fun e => (e.1, e.2.shard, peer)))
  let cleanup := stranded.map (fun e => Cleanup.drop (e.2.targetLocation e.1)) ++
    hosted.map (fun e => Cleanup.drop (e.2.location e.1))
  return ({ c with replicas := table, peers := c.peers.erase peer },
    aborts ++ { cancel, cleanup, events := [event] })

def checkPlacement (c : Cluster) : List (ShardId × List PeerId) → Except Error Unit
  | [] => .ok ()
  | (shard, hosts) :: rest =>
    if hosts.isEmpty then .error (.badRequest (.shardUnhosted shard))
    else match hosts.find? (fun p => !c.peers.contains p) with
      | some p => .error (.peerNotFound p)
      | none => c.checkPlacement rest

/-- Register active replicas for a placement. -/
def insertPlacement (table : ReplicaTable) (name : String) (placement : Placement) :
    Except Error ReplicaTable :=
  placement.entries.foldlM
    (fun t e => e.2.foldlM (fun t peer => t.insert name e.1 peer .active) t)
    table

def createCollection (c : Cluster) (name : String) (config : CollectionConfig)
    (placement : Placement) : Except Error (Cluster × Effects) := do
  if c.collections.contains name then throw (.badRequest (.collectionExists name))
  if config.shardNumber = 0 ∨ config.replicationFactor = 0 then
    throw (.badRequest .sizeNotPositive)
  let groups ← match config.method with
    | .auto =>
      if placement.isEmpty then throw (.badRequest .placementEmpty)
      else pure (SortedMap.empty.insert none (Router.single (.ofShards c.ringPositions placement.keys)))
    | .custom =>
      if placement.isEmpty then pure SortedMap.empty else throw (.badRequest .placementNotByKey)
  c.checkPlacement placement.entries
  let replicas ← insertPlacement (c.replicas.register name) name placement
  return ({ c with replicas, collections := c.collections.insert name { config, groups } }, {})

def deleteCollection (c : Cluster) (name : String) : Except Error (Cluster × Effects) := do
  let _ ← c.collection name
  let event := TopologyEvent.collectionDeleted name
  let (c, aborts) ← c.forceAborts event
  let cancel := Effects.cancelling name (c.transfers name)
  let (replicas, removed) := c.replicas.removeCollection name
  return ({ c with replicas, collections := c.collections.erase name },
    aborts ++ cancel ++ Effects.dropping name removed ++ { events := [event] })

def requireCustom (name : String) (coll : Collection) : Except Error Unit :=
  if coll.config.method = .custom then .ok () else .error (.badRequest (.notCustom name))

def createShardKey (c : Cluster) (name : String) (key : ShardKey) (placement : Placement) :
    Except Error (Cluster × Effects) := do
  let coll ← c.collection name
  requireCustom name coll
  if coll.groups.contains (some key) then throw (.badRequest (.keyExists key))
  if placement.isEmpty then throw (.badRequest .keyPlacementEmpty)
  match placement.keys.find? coll.shardSet.contains with
  | some shard => throw (.badRequest (.shardExists shard))
  | none => pure ()
  c.checkPlacement placement.entries
  let replicas ← insertPlacement c.replicas name placement
  let router := Router.single (.ofShards c.ringPositions placement.keys)
  return ({ c.setCollection name (coll.setRouter (some key) router) with replicas }, {})

/-- Remove all replicas of some shards; returns them. -/
def removeShards (table : ReplicaTable) (name : String) :
    List ShardId → Except Error (ReplicaTable × List Replica)
  | [] => .ok (table, [])
  | shard :: rest => do
    let (table, removed) ← table.removeShard name shard
    let (table, more) ← removeShards table name rest
    return (table, removed ++ more)

def deleteShardKey (c : Cluster) (name : String) (key : ShardKey) :
    Except Error (Cluster × Effects) := do
  let coll ← c.collection name
  requireCustom name coll
  if !coll.groups.contains (some key) then throw (.shardKeyNotFound key)
  let event := TopologyEvent.shardKeyDeleted name key
  let (c, aborts) ← c.forceAborts event
  let coll ← c.collection name
  let shards := match coll.groups.get? (some key) with
    | some router => router.shards
    | none => []
  let (coll, cancelled) :=
    { coll with groups := coll.groups.erase (some key) }.take
      (fun t => shards.contains t.key.shard || shards.contains t.key.toShard)
  let (replicas, removed) ← removeShards c.replicas name shards
  return ({ c.setCollection name coll with replicas },
    aborts ++ Effects.cancelling name cancelled ++ Effects.dropping name removed ++
      { events := [event] })

end ShardCluster.Cluster
