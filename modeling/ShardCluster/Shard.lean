import ShardCluster.SortedMap.Basic
/-! Names of the parts of a cluster: peers, shards, replicas and where their data is. -/
namespace ShardCluster
open Std

abbrev PeerId := UInt64
abbrev ShardId := UInt32

/-- The key of a shard group in a custom-sharded collection. Words come before numbers. -/
inductive ShardKey where
  | keyword (word : String)
  | number (n : UInt64)
  deriving DecidableEq, Repr, Inhabited

namespace ShardKey

def rank : ShardKey → UInt8
  | keyword _ => 0
  | number _ => 1

def word : ShardKey → String
  | keyword w => w
  | number _ => ""

def value : ShardKey → UInt64
  | keyword _ => 0
  | number n => n

instance : Ord ShardKey where
  compare := compareLex (compareOn rank) (compareLex (compareOn word) (compareOn value))

instance : TransOrd ShardKey :=
  inferInstanceAs (TransCmp (compareLex (compareOn rank) (compareLex (compareOn word) (compareOn value))))

theorem ext_parts {a b : ShardKey} (hr : a.rank = b.rank) (hw : a.word = b.word)
    (hv : a.value = b.value) : a = b := by
  cases a <;> cases b <;> simp_all [rank, word, value]

instance : LawfulEqOrd ShardKey where
  compare_self := ReflCmp.compare_self
  eq_of_compare {a b} h := by
    obtain ⟨hr, h⟩ := Ordering.then_eq_eq.1 h
    obtain ⟨hw, hv⟩ := Ordering.then_eq_eq.1 h
    exact ext_parts (LawfulEqOrd.eq_of_compare hr) (LawfulEqOrd.eq_of_compare hw)
      (LawfulEqOrd.eq_of_compare hv)

def text : ShardKey → String
  | keyword w => w
  | number n => toString n

end ShardKey

inductive ReplicaState where
  | active | dead | partialCopy | resharding
  deriving DecidableEq, Repr, Inhabited

namespace ReplicaState

def text : ReplicaState → String
  | active => "active"
  | dead => "dead"
  | partialCopy => "partial"
  | resharding => "resharding"

def readable : ReplicaState → Bool
  | active | resharding => true
  | dead | partialCopy => false

def acceptsWrites : ReplicaState → Bool
  | dead => false
  | _ => true

end ReplicaState

/-- One copy of a shard. -/
structure Replica where
  shard : ShardId
  peer : PeerId
  state : ReplicaState
  deriving DecidableEq, Repr, Inhabited

/-- Where the data of one replica is kept. -/
structure Location where
  collection : String
  peer : PeerId
  shard : ShardId
  deriving DecidableEq, Repr, Inhabited

namespace Location

theorem ext_parts {a b : Location} (hc : a.collection = b.collection) (hp : a.peer = b.peer)
    (hs : a.shard = b.shard) : a = b := by
  cases a
  cases b
  simp_all

instance : Ord Location where
  compare := compareLex (compareOn collection) (compareLex (compareOn peer) (compareOn shard))

instance : TransOrd Location :=
  inferInstanceAs (TransCmp (compareLex (compareOn collection) (compareLex (compareOn peer) (compareOn shard))))

instance : LawfulEqOrd Location where
  compare_self := ReflCmp.compare_self
  eq_of_compare {a b} h := by
    obtain ⟨hc, h⟩ := Ordering.then_eq_eq.1 h
    obtain ⟨hp, hs⟩ := Ordering.then_eq_eq.1 h
    exact ext_parts (LawfulEqOrd.eq_of_compare hc) (LawfulEqOrd.eq_of_compare hp)
      (LawfulEqOrd.eq_of_compare hs)

def text (l : Location) : String := s!"{l.collection}/{l.shard}@{l.peer}"

end Location

def Replica.location (collection : String) (r : Replica) : Location :=
  ⟨collection, r.peer, r.shard⟩

/-- Whether points go to shards of one common ring, or of the ring of a given shard key. -/
inductive ShardingMethod where
  | auto | custom
  deriving DecidableEq, Repr, Inhabited

def ShardingMethod.text : ShardingMethod → String
  | auto => "auto"
  | custom => "custom"

structure CollectionConfig where
  shardNumber : UInt32 := 1
  replicationFactor : UInt32 := 1
  method : ShardingMethod := .auto
  deriving DecidableEq, Repr, Inhabited

/-- Hosting peers of each new shard. -/
abbrev Placement := SortedMap ShardId (List PeerId)

end ShardCluster
