import ShardCluster.Shard
/-! Transfers: the movement of points from one replica to another. -/
namespace ShardCluster

/-- A transfer is known within its collection by its two ends. -/
structure TransferKey where
  shard : ShardId
  toShard : ShardId
  source : PeerId
  target : PeerId
  deriving DecidableEq, Repr, Inhabited

namespace TransferKey

def involves (k : TransferKey) (peer : PeerId) : Bool := k.source == peer || k.target == peer

/-- The replica that receives the points. -/
def destination (k : TransferKey) : ShardId × PeerId := (k.toShard, k.target)

def sourceLocation (collection : String) (k : TransferKey) : Location :=
  ⟨collection, k.source, k.shard⟩

def targetLocation (collection : String) (k : TransferKey) : Location :=
  ⟨collection, k.target, k.toShard⟩

def text (k : TransferKey) : String :=
  if k.shard = k.toShard then s!"shard {k.shard} peer {k.source} -> {k.target}"
  else s!"shard {k.shard} -> {k.toShard} peer {k.source} -> {k.target}"

end TransferKey

/-- A whole shard goes to a new replica, or a slice of it to another shard. -/
inductive TransferMethod where
  | wholeShard | slice
  deriving DecidableEq, Repr, Inhabited

def TransferMethod.text : TransferMethod → String
  | wholeShard => "stream_records"
  | slice => "resharding_stream_records"

inductive TransferStatus where
  | pending | running | finished | failed
  deriving DecidableEq, Repr, Inhabited

def TransferStatus.text : TransferStatus → String
  | pending => "pending"
  | running => "running"
  | finished => "finished"
  | failed => "failed"

structure Transfer where
  key : TransferKey
  method : TransferMethod
  status : TransferStatus := .pending
  /-- Which scheduling entry made the transfer; reports must name it. -/
  epoch : UInt64 := 0
  deriving DecidableEq, Repr, Inhabited

def Transfer.resharding (t : Transfer) : Bool := t.method == .slice

end ShardCluster
