import ShardCluster.Error
import ShardCluster.Ring
/-! The rings of one shard group. While a change is in flight there are two, and reads and writes
move from the old to the new one at a commit each. -/
namespace ShardCluster

structure VersionedRing where
  version : Nat
  ring : Ring
  deriving DecidableEq, Inhabited

inductive RingChange where
  | add (shard : ShardId)
  | remove (shard : ShardId)
  deriving DecidableEq, Repr, Inhabited

structure Router where
  old : VersionedRing
  /-- The ring that the change in flight leads to. -/
  new : Option VersionedRing := none
  read : VersionedRing := old
  write : VersionedRing := old
  deriving DecidableEq, Inhabited

namespace Router

def single (ring : Ring) : Router := { old := ⟨0, ring⟩ }

def resharding (r : Router) : Bool := r.new.isSome

/-- The ring after the change in flight, or the only ring. -/
def target (r : Router) : VersionedRing := r.new.getD r.old

/-- The shards of either ring, ascending. -/
def shardSet (r : Router) : SortedSet ShardId :=
  match r.new with
  | some new => r.old.ring.shards.union new.ring.shards
  | none => r.old.ring.shards

def shards (r : Router) : List ShardId := r.shardSet.toList

def routeOld (r : Router) (id : PointId) : Option ShardId := r.old.ring.route id
def routeNew (r : Router) (id : PointId) : Option ShardId := r.target.ring.route id
def routeRead (r : Router) (id : PointId) : Option ShardId := r.read.ring.route id
def routeWrite (r : Router) (id : PointId) : Option ShardId := r.write.ring.route id

/-- The shards that a write must reach: the owner for writes first, and during a change both the
old and the new owner. -/
def writeTargets (r : Router) (id : PointId) : List ShardId :=
  let owner := (r.routeWrite id).toList
  if r.resharding then
    ((r.routeOld id).toList ++ (r.routeNew id).toList).foldl
      (fun targets shard => if shard ∈ targets then targets else targets ++ [shard]) owner
  else owner

/-- The ring that a change leads to. -/
def changed (ring : Ring) : RingChange → Except Error Ring
  | .add shard =>
    if ring.contains shard then .error (.badRequest (.shardOnRing shard)) else .ok (ring.add shard)
  | .remove shard =>
    if !ring.contains shard then .error (.shardNotFound shard)
    else if ring.size = 1 then .error (.badRequest .lastOnRing)
    else .ok (ring.remove shard)

def start (r : Router) (change : RingChange) : Except Error Router :=
  if r.resharding then .error (.internal .ringBusy)
  else do
    let ring ← changed r.old.ring change
    return { r with new := some ⟨r.old.version + 1, ring⟩ }

def inFlight (r : Router) : Except Error VersionedRing :=
  match r.new with
  | some new => .ok new
  | none => .error (.internal .ringIdle)

def commitRead (r : Router) : Except Error Router := do
  let new ← r.inFlight
  return { r with read := new }

def commitWrite (r : Router) : Except Error Router := do
  let new ← r.inFlight
  return { r with write := new }

/-- The new ring becomes the only one. -/
def finish (r : Router) : Except Error Router := do
  let new ← r.inFlight
  return ⟨new, none, new, new⟩

/-- The old ring becomes the only one again. -/
def abort (r : Router) : Router := ⟨r.old, none, r.old, r.old⟩

/-- The points of a shard by the larger of the two rings, so that the shard which comes or goes
is always named with all the points that it gains or loses. -/
def slice (r : Router) (shard : ShardId) : Slice :=
  match r.new with
  | some new => if r.old.ring.size < new.ring.size then ⟨new.ring, shard⟩ else ⟨r.old.ring, shard⟩
  | none => ⟨r.old.ring, shard⟩

/-- The points of a shard by the target ring. -/
def targetSlice (r : Router) (shard : ShardId) : Slice := ⟨r.target.ring, shard⟩

end Router
end ShardCluster
