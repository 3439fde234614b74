import ShardCluster.Hash.Xxh64
import ShardCluster.Point
import ShardCluster.Shard
/-! Consistent hashing. Every shard has the same number of positions on a ring of 64-bit hashes,
and a point belongs to the shard of the first position at or after its own hash. -/
namespace ShardCluster

structure Ring where
  /-- Owner of each taken position. -/
  positions : SortedMap UInt64 ShardId
  perShard : Nat
  shards : SortedSet ShardId
  deriving DecidableEq, Inhabited

namespace Ring

def defaultPositions : Nat := 128

/-- The hash of a byte string, counted with its length. -/
def hash (key : Bytes) : UInt64 :=
  Xxh64.hash (Bytes.little64 (UInt64.ofNat key.length) ++ key)

/-- Where the `i`-th position of a shard is. -/
def position (shard : ShardId) (i : Nat) : UInt64 :=
  hash (Bytes.ofText s!"shard-{shard}:{i}")

def empty (perShard : Nat) : Ring := ⟨.empty, max perShard 1, .empty⟩

def contains (r : Ring) (shard : ShardId) : Bool := r.shards.contains shard

def size (r : Ring) : Nat := r.shards.size

/-- Let a shard take its positions, also those that another shard holds. -/
def claim (shard : ShardId) (positions : SortedMap UInt64 ShardId) (count : Nat) :
    SortedMap UInt64 ShardId :=
  (List.range count).foldl (fun m i => m.insert (position shard i) shard) positions

def add (r : Ring) (shard : ShardId) : Ring :=
  if r.contains shard then r
  else { r with positions := claim shard r.positions r.perShard, shards := r.shards.add shard }

def remove (r : Ring) (shard : ShardId) : Ring :=
  if r.contains shard then
    { r with
      positions := r.positions.filter (fun _ owner => owner != shard)
      shards := r.shards.erase shard }
  else r

def ofShards (perShard : Nat) (shards : List ShardId) : Ring := shards.foldl add (empty perShard)

/-- Owner of the first position at or after `h`, going round past the last one. -/
def ownerAt (r : Ring) (h : UInt64) : Option ShardId :=
  ((r.positions.firstFrom? h).or r.positions.first?).map (·.2)

def route (r : Ring) (id : PointId) : Option ShardId := r.ownerAt (hash id.routingBytes)

/-- How many of the points numbered below `sample` each shard gets. -/
def distribution (r : Ring) (sample : Nat) : SortedMap ShardId Nat :=
  (List.range sample).foldl
    (fun counts i =>
      match r.route (.num (UInt64.ofNat i)) with
      | some shard => counts.insert shard ((counts.get? shard).getD 0 + 1)
      | none => counts)
    .empty

end Ring

/-- The points that a ring gives to one shard. -/
structure Slice where
  ring : Ring
  shard : ShardId
  deriving DecidableEq, Inhabited

namespace Slice

def selects (s : Slice) (id : PointId) : Bool := s.ring.route id == some s.shard

/-- No slice stands for all points. -/
def admits (slice : Option Slice) (id : PointId) : Bool := slice.all (·.selects id)

end Slice
end ShardCluster
