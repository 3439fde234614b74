import ShardCluster.Shard
/-! What listeners hear about: parts of the cluster that are gone for good. -/
namespace ShardCluster

inductive TopologyEvent where
  | collectionDeleted (collection : String)
  | shardKeyDeleted (collection : String) (key : ShardKey)
  | peerRemoved (peer : PeerId) (force : Bool)
  deriving DecidableEq, Repr, Inhabited

namespace TopologyEvent

def name : TopologyEvent → String
  | collectionDeleted _ => "collection_deleted"
  | shardKeyDeleted .. => "shard_key_deleted"
  | peerRemoved .. => "peer_removed"

def describe : TopologyEvent → String
  | collectionDeleted collection => s!"collection {collection} deleted"
  | shardKeyDeleted collection key => s!"shard key {key.text} deleted from collection {collection}"
  | peerRemoved peer _ => s!"peer {peer} removed"

def collection? : TopologyEvent → Option String
  | collectionDeleted collection | shardKeyDeleted collection _ => some collection
  | peerRemoved .. => none

end TopologyEvent

/-- A listener either keeps what it hears, in order, or does not. -/
inductive Listener where
  | recorder (heard : List TopologyEvent)
  | silent
  deriving DecidableEq, Repr, Inhabited

def Listener.hear (event : TopologyEvent) : Listener → Listener
  | recorder heard => recorder (heard ++ [event])
  | silent => silent

/-- Listeners in the order in which they subscribed. -/
structure Feed where
  listeners : List Listener := []
  deriving DecidableEq, Repr, Inhabited

namespace Feed

def subscribe (f : Feed) (l : Listener) : Feed := ⟨f.listeners ++ [l]⟩

def publish (f : Feed) (event : TopologyEvent) : Feed := ⟨f.listeners.map (·.hear event)⟩

/-- A recorder whose tape has been taken starts on an empty one. -/
def cleared (f : Feed) : Feed :=
  ⟨f.listeners.map (fun
    | .recorder _ => .recorder []
    | .silent => .silent)⟩

/-- What each recorder has heard. -/
def heard (f : Feed) : List (List TopologyEvent) :=
  f.listeners.filterMap (fun
    | .recorder events => some events
    | .silent => none)

end Feed
end ShardCluster
