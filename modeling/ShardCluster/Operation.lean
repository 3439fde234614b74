import ShardCluster.Stage
import ShardCluster.Time
/-! A resharding operation: a shard group gains or loses one shard. -/
namespace ShardCluster

inductive Direction where
  | up | down
  deriving DecidableEq, Repr, Inhabited

namespace Direction

def text : Direction → String
  | up => "up"
  | down => "down"

def verb : Direction → String
  | up => "adding"
  | down => "removing"

end Direction

structure Operation where
  collection : String
  direction : Direction
  peer : PeerId
  shard : ShardId
  key : Option ShardKey := none
  stage : Stage := .starting
  createdAt : Timestamp := .epoch
  deriving DecidableEq, Repr, Inhabited

namespace Operation

def describe (o : Operation) : String :=
  match o.key with
  | some key => s!"resharding {o.direction.text}: {o.direction.verb} shard {o.shard} (key {key.text}) on peer {o.peer}"
  | none => s!"resharding {o.direction.text}: {o.direction.verb} shard {o.shard} on peer {o.peer}"

def involves (o : Operation) (peer : PeerId) : Bool := o.peer == peer

def comment (o : Operation) : String := s!"{o.stage.text}: {o.describe}"

end Operation

/-- What an operator asks for; what is left open is chosen by the plan. -/
structure ReshardingRequest where
  direction : Direction
  peer : Option PeerId := none
  key : Option ShardKey := none
  shard : Option ShardId := none
  deriving DecidableEq, Repr, Inhabited

end ShardCluster
