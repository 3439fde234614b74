import ShardCluster.Shard
import ShardCluster.Ring
import ShardCluster.Time
/-! Settings of a node and of the copying of points between replicas. -/
namespace ShardCluster

structure CopyConfig where
  batchSize : Nat := 100
  maxRetries : Nat := 3
  retryBackoff : Duration := .ofParts 1 0
  maxBackoff : Duration := .ofParts 10 0
  /-- Compare source and destination before reporting success. -/
  verify : Bool := true
  deriving DecidableEq, Repr

namespace CopyConfig

instance : Inhabited CopyConfig := ⟨{}⟩

/-- Short waits between retries. -/
def brisk : CopyConfig := { retryBackoff := .ofMillis 10, maxBackoff := .ofMillis 50 }

def withBatchSize (c : CopyConfig) (n : Nat) : CopyConfig :=
  { c with batchSize := max n 1 }

def withBackoff (c : CopyConfig) (initial most : Duration) : CopyConfig :=
  { c with retryBackoff := initial, maxBackoff := ⟨max most.nanos initial.nanos⟩ }

/-- The wait doubles with every retry, sixteen times at most, up to the bound. -/
def backoff (c : CopyConfig) (attempt : Nat) : Duration :=
  ⟨min (c.retryBackoff.nanos <<< min attempt 16) c.maxBackoff.nanos⟩

end CopyConfig

/-- Which shard leaves a group when the request names none. -/
inductive RemovalPolicy where
  | last | first
  deriving DecidableEq, Repr, Inhabited

def RemovalPolicy.text : RemovalPolicy → String
  | last => "last"
  | first => "first"

structure NodeConfig where
  peer : PeerId := 1
  ringPositions : Nat := Ring.defaultPositions
  copying : CopyConfig := default
  removal : RemovalPolicy := .last
  /-- Whether a request may abort an operation whose reads have moved to the new ring. -/
  abortAfterReadCommit : Bool := true
  deriving DecidableEq, Repr, Inhabited

def NodeConfig.withRingPositions (c : NodeConfig) (n : Nat) : NodeConfig :=
  { c with ringPositions := max n 1 }

end ShardCluster
