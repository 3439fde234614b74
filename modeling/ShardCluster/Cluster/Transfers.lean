import ShardCluster.Cluster.Resharding
/-! Entries on transfers and on single replicas. -/
namespace ShardCluster.Cluster

/-- Schedule the copy of a whole shard to a peer that does not host it. -/
def startTransfer (c : Cluster) (name : String) (t : Transfer) :
    Except Error (Cluster × Effects) := do
  let key := t.key
  let coll ← c.collection name
  c.requireIdle name
  if t.method != .wholeShard then throw (.badRequest (.methodReserved t.method))
  if key.shard != key.toShard || key.source == key.target then
    throw (.badRequest (.invalidReplication key))
  c.requirePeer key.source
  c.requirePeer key.target
  let state ← c.replicas.state name key.shard key.source
  if state != .active then throw (.badRequest (.sourceState key.shard key.source state))
  if c.replicas.contains name key.shard key.target then
    throw (.badRequest (.alreadyHosts key.target key.shard))
  key.checkAgainst coll.transfers
  let replicas ← c.replicas.insert name key.shard key.target .partialCopy
  let epoch := c.epoch + 1
  let running := { t with status := .running, epoch }
  return (
    { c with
      epoch
      replicas
      collections := c.collections.insert name { coll with transfers := coll.transfers ++ [running] } },
    { spawn := [⟨name, key, epoch, none⟩] })

/-- A report must name the transfer that is in the table, not an earlier one with the same key. -/
def checkEpoch (t : Transfer) (reported : UInt64) : Except Error Unit :=
  if t.epoch = reported then .ok () else .error (.staleReport t.key.text reported t.epoch)

/-- Let the first waiting transfer into the replica run; returns it. -/
def release (destination : ShardId × PeerId) : List Transfer → List Transfer × Option Transfer
  | [] => ([], none)
  | t :: rest =>
    if t.status = .pending ∧ t.key.destination = destination then
      let running := { t with status := .running }
      (running :: rest, some running)
    else
      let (rest', next) := release destination rest
      (t :: rest', next)

/-- A transfer of an operation is done: the next one into its replica starts, and after the last
one of all the stage moves on. -/
def finishSlice (c : Cluster) (name : String) (coll : Collection) (key : TransferKey) :
    Except Error (Cluster × Effects) := do
  let (transfers, next) := release key.destination coll.transfers
  let coll := { coll with transfers }
  let spawn ← match next with
    | some t => do
      let router ← coll.router ((c.operation? name).bind (·.key))
      pure [copyOf name router t]
    | none => pure []
  let c := c.setCollection name coll
  let waiting := coll.transfers.any (·.resharding)
  let c ← if !waiting && c.stage? name == some .starting then
      (·.1) <$> c.advance name .transfersFinished
    else pure c
  return (c, { spawn })

def finishTransfer (c : Cluster) (name : String) (key : TransferKey) (epoch : UInt64) :
    Except Error (Cluster × Effects) := do
  let coll ← c.collection name
  let t ← coll.find key
  checkEpoch t epoch
  if t.status != .running then throw (.badRequest (.notRunning key))
  let coll := { coll with transfers := coll.transfers.eraseP (·.key == key) }
  let done : Effects := { completed := [(name, { t with status := .finished })] }
  if t.resharding then
    let (c, effects) ← c.finishSlice name coll key
    return (c, effects ++ done)
  else
    let c := c.setCollection name coll
    let (replicas, _) ← c.replicas.setState name key.toShard key.target .active
    return ({ c with replicas }, done)

/-- Take a whole-shard transfer out of the table, and the incomplete replica with it. -/
def discardTransfer (c : Cluster) (name : String) (coll : Collection) (key : TransferKey) :
    Except Error (Cluster × Effects) := do
  let (coll, _) := coll.take (·.key == key)
  let (replicas, _) ← c.replicas.remove name key.toShard key.target
  return ({ c.setCollection name coll with replicas },
    { cleanup := [.drop (key.targetLocation name)] })

def failTransfer (c : Cluster) (name : String) (key : TransferKey) (epoch : UInt64)
    (reason : String) : Except Error (Cluster × Effects) := do
  let coll ← c.collection name
  let t ← coll.find key
  checkEpoch t epoch
  let done : Effects := { completed := [(name, { t with status := .failed })] }
  if t.resharding then
    let (c, effects) ← c.rollBack name true (Error.transferFailed (.reported key reason)).message
    -- the copy that reports its own failure ends by itself
    let effects := { effects with cancel := effects.cancel.filter (· != (name, key)) }
    return (c, effects ++ done)
  else
    let (c, effects) ← c.discardTransfer name coll key
    return (c, effects ++ done)

def abortTransfer (c : Cluster) (name : String) (key : TransferKey) :
    Except Error (Cluster × Effects) := do
  let coll ← c.collection name
  let t ← coll.find key
  if t.resharding then throw (.badRequest (.partOfResharding key))
  let (c, effects) ← c.discardTransfer name coll key
  return (c, { cancel := [(name, key)] } ++ effects)

/-- Refuse a change of a replica on which the live operation or a transfer depends. -/
def requireUnused (c : Cluster) (name : String) (shard : ShardId) (peer : PeerId) :
    Except Error Unit := do
  let state ← c.replicas.state name shard peer
  match c.operation? name with
  | some op =>
    if state = .resharding ∨ op.shard = shard then
      throw (.badRequest (.replicaInOperation shard peer op.describe))
  | none => pure ()
  match (c.transfers name).find? (fun t =>
      (t.key.shard == shard && t.key.source == peer) || t.key.destination == (shard, peer)) with
  | some t => throw (.transferConflict (.usesReplica shard peer t.key))
  | none => pure ()

def dropReplica (c : Cluster) (name : String) (shard : ShardId) (peer : PeerId) :
    Except Error (Cluster × Effects) := do
  c.requireUnused name shard peer
  if (← c.replicas.shardReplicas name shard).length = 1 then
    throw (.badRequest (.lastReplica shard))
  let (replicas, _) ← c.replicas.remove name shard peer
  return ({ c with replicas }, { cleanup := [.drop ⟨name, peer, shard⟩] })

def setReplicaState (c : Cluster) (name : String) (shard : ShardId) (peer : PeerId)
    (state : ReplicaState) : Except Error (Cluster × Effects) := do
  let current ← c.replicas.state name shard peer
  if state = .resharding ∨ current = .resharding then
    throw (.badRequest (.managedReplica shard peer))
  c.requireUnused name shard peer
  let (replicas, _) ← c.replicas.setState name shard peer state
  return ({ c with replicas }, {})

end ShardCluster.Cluster
