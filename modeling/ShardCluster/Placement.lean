import ShardCluster.Error
/-! Where the replicas of new shards go. -/
namespace ShardCluster.Placement

/-- Replica `j` of shard `i` goes to the peer at index `i + j`, counted round the list. -/
def hosts (peers : List PeerId) (factor : Nat) (shard : ShardId) : List PeerId :=
  (List.range factor).map (fun j => peers.getD ((shard.toNat + j) % peers.length) 0)

def roundRobin (shards : List ShardId) (peers : List PeerId) (factor : UInt32) :
    Except Error Placement :=
  if peers.isEmpty then .error (.badRequest .noPeers)
  else if factor = 0 ∨ peers.length < factor.toNat then
    .error (.badRequest (.unsatisfiable factor peers.length))
  else .ok (.ofList (shards.map (fun s => (s, hosts peers factor.toNat s))))

/-- The shards numbered from `first` on. -/
def consecutive (first : ShardId) (count : UInt32) : List ShardId :=
  (List.range count.toNat).map (fun i => first + UInt32.ofNat i)

end ShardCluster.Placement
