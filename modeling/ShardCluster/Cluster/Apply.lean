import ShardCluster.Cluster.Shape
/-! The meaning of a log entry: a change of the cluster and the effects to carry out, or an error
that leaves the cluster as it was. -/
namespace ShardCluster.Cluster

def apply (c : Cluster) : Entry → Except Error (Cluster × Effects)
  | .addPeer peer => c.addPeer peer
  | .removePeer peer force => c.removePeer peer force
  | .createCollection name config placement => c.createCollection name config placement
  | .deleteCollection name => c.deleteCollection name
  | .createShardKey name key placement => c.createShardKey name key placement
  | .deleteShardKey name key => c.deleteShardKey name key
  | .startResharding plan => c.startResharding plan
  | .commitRead name => c.commitRead name
  | .commitWrite name => c.commitWrite name
  | .finishResharding name => c.finishResharding name
  | .abortResharding name forced reason => c.abortResharding name forced reason
  | .startTransfer name t => c.startTransfer name t
  | .finishTransfer name key epoch => c.finishTransfer name key epoch
  | .failTransfer name key epoch reason => c.failTransfer name key epoch reason
  | .abortTransfer name key => c.abortTransfer name key
  | .dropReplica name shard peer => c.dropReplica name shard peer
  | .setReplicaState name shard peer state => c.setReplicaState name shard peer state

/-- Apply entries in order; the first error ends it. -/
def applyAll (c : Cluster) : List Entry → Except Error Cluster
  | [] => .ok c
  | entry :: rest => do
    let (c, _) ← c.apply entry
    c.applyAll rest

def replay (home : PeerId) (ringPositions : Nat) (entries : List Entry) : Except Error Cluster :=
  (new home ringPositions).applyAll entries

/-- The copies that should be running: one for each running transfer. -/
def runningCopies (c : Cluster) : Except Error (List CopyRequest) :=
  c.collections.entries.foldlM
    (fun requests e => do
      let key := (c.operation? e.1).bind (·.key)
      let copies ← (e.2.transfers.filter (·.status == .running)).mapM fun t =>
        if t.resharding then do return copyOf e.1 (← e.2.router key) t
        else return ⟨e.1, t.key, t.epoch, none⟩
      return requests ++ copies)
    []

end ShardCluster.Cluster
