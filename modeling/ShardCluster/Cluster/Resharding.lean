import ShardCluster.Cluster.Basic
/-! Entries that move a resharding operation: start, commits, finish and abort. -/
namespace ShardCluster.Cluster

/-- Move the live operation of a collection on by one action; returns its shard key. -/
def advance (c : Cluster) (name : String) (action : Action) :
    Except Error (Cluster × Option ShardKey) := do
  let _ ← c.collection name
  let next ← Stage.next true (c.stage? name) action
  match c.operation? name with
  | none => throw (.internal (.operationMissing name))
  | some op =>
    let op' := match next with
      | some stage => { op with stage }
      | none => op
    return ({ c with operations := c.operations.insert name op' }, op.key)

/-- Ask for the copy that a transfer of the live operation stands for. -/
def copyOf (name : String) (router : Router) (t : Transfer) : CopyRequest :=
  ⟨name, t.key, t.epoch, some (router.targetSlice t.key.toShard)⟩

/-- Mark the replicas that an operation fills. -/
def claimReplicas (table : ReplicaTable) (op : Operation) (transfers : List Transfer) :
    Except Error ReplicaTable :=
  match op.direction with
  | .up => table.insert op.collection op.shard op.peer .resharding
  | .down => transfers.foldlM
      (fun t transfer => do
        let (t', _) ← t.setState op.collection transfer.key.toShard transfer.key.target .resharding
        return t')
      table

def startResharding (c : Cluster) (plan : Plan) : Except Error (Cluster × Effects) := do
  let op := plan.operation
  let name := op.collection
  c.requireIdle name
  let _ ← Stage.next true none .start
  c.requirePeer op.peer
  let change := match op.direction with
    | .up => RingChange.add op.shard
    | .down => RingChange.remove op.shard
  let epoch := c.epoch + 1
  let coll ← c.collection name
  requireNoTransfer name coll
  let router ← (← coll.router op.key).start change
  let transfers := plan.transfers.map (fun t => { t with epoch })
  let spawn := (transfers.filter (·.status == .running)).map (copyOf name router)
  let replicas ← claimReplicas c.replicas op plan.transfers
  let started := { op with stage := .starting }
  let c' : Cluster :=
    { c with
      epoch
      collections := c.collections.insert name
        { coll.setRouter op.key router with transfers := coll.transfers ++ transfers }
      replicas
      operations := c.operations.insert name started }
  let c'' ← if plan.transfers.isEmpty then (·.1) <$> c'.advance name .transfersFinished else pure c'
  return (c'', { spawn, started := [started] })

def commitRead (c : Cluster) (name : String) : Except Error (Cluster × Effects) := do
  let (c', key) ← c.advance name .commitRead
  let router ← (← c'.router name key).commitRead
  return (← c'.setRouter name key router, {})

def commitWrite (c : Cluster) (name : String) : Except Error (Cluster × Effects) := do
  let (c', key) ← c.advance name .commitWrite
  let router ← (← c'.router name key).commitWrite
  return (← c'.setRouter name key router, {})

/-- Make the replicas of the given shards that were being filled active; returns those. -/
def settleReplicas (table : ReplicaTable) (name : String) (shards : List ShardId) :
    Except Error (ReplicaTable × List Replica) := do
  let all ← table.replicas name
  let filled := all.filter (fun r => r.state == .resharding && shards.contains r.shard)
  let table' ← filled.foldlM
    (fun t r => do
      let (t', _) ← t.setState name r.shard r.peer .active
      return t')
    table
  return (table', filled)

/-- The replicas of some shards, each of which must have one. -/
def replicasOf (table : ReplicaTable) (name : String) : List ShardId → Except Error (List Replica)
  | [] => .ok []
  | shard :: rest => do
    let here ← table.shardReplicas name shard
    return here ++ (← replicasOf table name rest)

def finishResharding (c : Cluster) (name : String) : Except Error (Cluster × Effects) := do
  let (c, _) ← c.advance name .finish
  match c.operation? name with
  | none => throw (.internal (.operationMissing name))
  | some op =>
    let router ← c.router name op.key
    let moved := router.targetSlice op.shard
    let after ← router.finish
    let (table, _) ← settleReplicas c.replicas name router.shards
    let c' ← { c with operations := c.operations.erase name }.setRouter name op.key after
    match op.direction with
    | .up =>
      let sources ← replicasOf table name router.old.ring.shards.toList
      return ({ c' with replicas := table },
        Effects.deleting name moved sources ++ { finished := [op] })
    | .down =>
      let (table, removed) ← table.removeShard name op.shard
      return ({ c' with replicas := table },
        Effects.dropping name removed ++ { finished := [op] })

/-- Roll the live operation of a collection back; without one, nothing happens. -/
def rollBack (c : Cluster) (name : String) (forced : Bool) (reason : String) :
    Except Error (Cluster × Effects) :=
  match c.operation? name with
  | none => .ok (c, {})
  | some op => do
    let coll ← c.collection name
    let (coll, cancelled) := coll.take (·.resharding)
    let router ← coll.router op.key
    let coll := coll.setRouter op.key router.abort
    let (table, cleanup) ← match op.direction with
      | .up => do
        let (table, removed) ← c.replicas.removeShard name op.shard
        pure (table, Effects.dropping name removed)
      | .down => do
        let (table, restored) ← settleReplicas c.replicas name router.shards
        pure (table, Effects.deleting name (router.slice op.shard) restored)
    let c' : Cluster :=
      { c with
        collections := c.collections.insert name coll
        replicas := table
        operations := c.operations.erase name }
    return (c', Effects.cancelling name cancelled ++ cleanup ++
      { aborted := [⟨op, forced, reason⟩] })

def abortResharding (c : Cluster) (name : String) (forced : Bool) (reason : String) :
    Except Error (Cluster × Effects) := do
  let _ ← c.collection name
  let _ ← Stage.next true (c.stage? name) (.abort forced)
  c.rollBack name forced reason

end ShardCluster.Cluster
