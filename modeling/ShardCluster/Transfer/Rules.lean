import ShardCluster.Error
/-! Which transfers may run side by side, and from which replica to copy. -/
namespace ShardCluster

/-- Two transfers between the same shards must not share a peer. -/
def TransferKey.checkAgainst (key : TransferKey) : List Transfer → Except Error Unit
  | [] => .ok ()
  | t :: rest =>
    if t.key = key then .error (.transferConflict (.duplicate key))
    else if t.key.shard = key.shard ∧ t.key.toShard = key.toShard ∧
        (t.key.involves key.source || t.key.involves key.target) then
      .error (.transferConflict (.overlaps key t.key))
    else key.checkAgainst rest

namespace Replica

/-- How many of the transfers copy from this peer. -/
def outgoing (keys : List TransferKey) (peer : PeerId) : Nat :=
  (keys.filter (·.source == peer)).length

/-- The better of two candidates: fewer outgoing transfers, then the lower peer. -/
def lighter (a b : Nat × PeerId) : Nat × PeerId :=
  if b.1 < a.1 ∨ (b.1 = a.1 ∧ b.2 < a.2) then b else a

/-- The active replica that is busy with the fewest transfers, the lowest peer among equals. -/
def suggestSource (replicas : List Replica) (keys : List TransferKey) : Option PeerId :=
  let candidates := (replicas.filter (·.state == .active)).map (fun r => (outgoing keys r.peer, r.peer))
  match candidates with
  | [] => none
  | c :: rest => some (rest.foldl lighter c).2

end Replica
end ShardCluster
