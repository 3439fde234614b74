import ShardCluster.Router
/-! A collection: its settings, the rings of its shard groups, and its transfers. -/
namespace ShardCluster

structure Collection where
  config : CollectionConfig
  /-- By shard key; an auto-sharded collection has the one group without a key. -/
  groups : SortedMap (Option ShardKey) Router := .empty
  transfers : List Transfer := []
  deriving DecidableEq, Inhabited

namespace Collection

/-- Every shard on a ring of some group. -/
def shardSet (c : Collection) : SortedSet ShardId :=
  c.groups.values.foldl (fun s r => s.union r.shardSet) .empty

def shardIds (c : Collection) : List ShardId := c.shardSet.toList

/-- One more than the largest shard, or zero. The numbers of shards end below 2^32. -/
def nextShard (c : Collection) : Except Error ShardId :=
  match c.shardSet.last? with
  | some (shard, _) =>
    if shard.toNat + 1 < UInt32.size then .ok (shard + 1) else .error .overflow
  | none => .ok 0

/-- The key of the first group that holds the shard. -/
def keyOf (c : Collection) (shard : ShardId) : Option ShardKey :=
  (c.groups.entries.find? (fun e => e.2.shardSet.contains shard)).bind (·.1)

def checkKey (c : Collection) (key : Option ShardKey) : Except Error Unit :=
  match c.config.method, key with
  | .auto, some k => .error (.badRequest (.keyOnAuto k))
  | .custom, none => .error (.badRequest .keyRequired)
  | _, _ => .ok ()

def router (c : Collection) (key : Option ShardKey) : Except Error Router := do
  c.checkKey key
  match c.groups.get? key, key with
  | some r, _ => return r
  | none, some k => throw (.shardKeyNotFound k)
  | none, none => throw (.internal .groupMissing)

def setRouter (c : Collection) (key : Option ShardKey) (r : Router) : Collection :=
  { c with groups := c.groups.insert key r }

/-- Take the transfers that satisfy `p` out of the table. -/
def take (c : Collection) (p : Transfer → Bool) : Collection × List Transfer :=
  ({ c with transfers := c.transfers.filter (fun t => !p t) }, c.transfers.filter p)

def find (c : Collection) (key : TransferKey) : Except Error Transfer :=
  match c.transfers.find? (·.key == key) with
  | some t => .ok t
  | none => .error (.transferNotFound key.text)

end Collection
end ShardCluster
