import ShardCluster.Entry
import ShardCluster.Wire.Format
/-! The binary layout of log entries. -/
namespace ShardCluster.Wire

def directions : List Direction := [.up, .down]
def stages : List Stage := [.starting, .awaitingReadCommit, .awaitingWriteCommit, .awaitingFinish]
def states : List ReplicaState := [.active, .dead, .partialCopy, .resharding]
def shardings : List ShardingMethod := [.auto, .custom]
def methods : List TransferMethod := [.wholeShard, .slice]
def statuses : List TransferStatus := [.pending, .running, .finished, .failed]

def writeKey : ShardKey → Bytes
  | .keyword w => Bytes.little32 0 ++ writeText w
  | .number n => Bytes.little32 1 ++ Bytes.little64 n

def readKey : Reader ShardKey := do
  match ← readWord32 with
  | 0 => return .keyword (← readText)
  | 1 => return .number (← readWord64)
  | found => throw (.alternative found 2)

def writeConfig (c : CollectionConfig) : Bytes :=
  Bytes.little32 c.shardNumber ++ Bytes.little32 c.replicationFactor ++ writeCase shardings c.method

def readConfig : Reader CollectionConfig := do
  let shardNumber ← readWord32
  let replicationFactor ← readWord32
  return { shardNumber, replicationFactor, method := ← readCase shardings }

def writePlacement : Placement → Bytes := writeMap Bytes.little32 (writeList Bytes.little64)

def readPlacement : Reader Placement := readMap readWord32 (readList readWord64)

def writeTransferKey (k : TransferKey) : Bytes :=
  Bytes.little32 k.shard ++ Bytes.little32 k.toShard ++ Bytes.little64 k.source ++
    Bytes.little64 k.target

def readTransferKey : Reader TransferKey := do
  let shard ← readWord32
  let toShard ← readWord32
  let source ← readWord64
  return { shard, toShard, source, target := ← readWord64 }

def writeTransfer (t : Transfer) : Bytes :=
  writeTransferKey t.key ++ writeCase methods t.method ++ writeCase statuses t.status ++
    Bytes.little64 t.epoch

def readTransfer : Reader Transfer := do
  let key ← readTransferKey
  let method ← readCase methods
  let status ← readCase statuses
  return { key, method, status, epoch := ← readWord64 }

def writeOperation (o : Operation) : Except Fault Bytes := do
  let instant ← writeInstant o.createdAt
  return writeText o.collection ++ writeCase directions o.direction ++ Bytes.little64 o.peer ++
    Bytes.little32 o.shard ++ writeOption writeKey o.key ++ writeCase stages o.stage ++ instant

def readOperation : Reader Operation := do
  let collection ← readText
  let direction ← readCase directions
  let peer ← readWord64
  let shard ← readWord32
  let key ← readOption readKey
  let stage ← readCase stages
  return { collection, direction, peer, shard, key, stage, createdAt := ← readInstant }

def writePlan (p : Plan) : Except Fault Bytes := do
  return (← writeOperation p.operation) ++ writeList writeTransfer p.transfers

def readPlan : Reader Plan := do
  let operation ← readOperation
  return { operation, transfers := ← readList readTransfer }

/-- The content of an entry, without the number of its kind. -/
def writeContent : Entry → Except Fault Bytes
  | .addPeer peer => .ok (Bytes.little64 peer)
  | .removePeer peer force => .ok (Bytes.little64 peer ++ writeFlag force)
  | .createCollection name config placement =>
    .ok (writeText name ++ writeConfig config ++ writePlacement placement)
  | .deleteCollection name => .ok (writeText name)
  | .createShardKey name key placement => .ok (writeText name ++ writeKey key ++ writePlacement placement)
  | .deleteShardKey name key => .ok (writeText name ++ writeKey key)
  | .startResharding plan => writePlan plan
  | .commitRead name => .ok (writeText name)
  | .commitWrite name => .ok (writeText name)
  | .finishResharding name => .ok (writeText name)
  | .abortResharding name forced reason => .ok (writeText name ++ writeFlag forced ++ writeText reason)
  | .startTransfer name t => .ok (writeText name ++ writeTransfer t)
  | .finishTransfer name key epoch =>
    .ok (writeText name ++ writeTransferKey key ++ Bytes.little64 epoch)
  | .failTransfer name key epoch reason =>
    .ok (writeText name ++ writeTransferKey key ++ Bytes.little64 epoch ++ writeText reason)
  | .abortTransfer name key => .ok (writeText name ++ writeTransferKey key)
  | .dropReplica name shard peer => .ok (writeText name ++ Bytes.little32 shard ++ Bytes.little64 peer)
  | .setReplicaState name shard peer state =>
    .ok (writeText name ++ Bytes.little32 shard ++ Bytes.little64 peer ++ writeCase states state)

def kind : Entry → UInt32
  | .addPeer .. => 0
  | .removePeer .. => 1
  | .createCollection .. => 2
  | .deleteCollection .. => 3
  | .createShardKey .. => 4
  | .deleteShardKey .. => 5
  | .startResharding .. => 6
  | .commitRead .. => 7
  | .commitWrite .. => 8
  | .finishResharding .. => 9
  | .abortResharding .. => 10
  | .startTransfer .. => 11
  | .finishTransfer .. => 12
  | .failTransfer .. => 13
  | .abortTransfer .. => 14
  | .dropReplica .. => 15
  | .setReplicaState .. => 16

def writeEntry (e : Entry) : Except Fault Bytes := do
  return Bytes.little32 (kind e) ++ (← writeContent e)

def readContent : UInt32 → Reader Entry
  | 0 => return .addPeer (← readWord64)
  | 1 => return .removePeer (← readWord64) (← readFlag)
  | 2 => return .createCollection (← readText) (← readConfig) (← readPlacement)
  | 3 => return .deleteCollection (← readText)
  | 4 => return .createShardKey (← readText) (← readKey) (← readPlacement)
  | 5 => return .deleteShardKey (← readText) (← readKey)
  | 6 => return .startResharding (← readPlan)
  | 7 => return .commitRead (← readText)
  | 8 => return .commitWrite (← readText)
  | 9 => return .finishResharding (← readText)
  | 10 => return .abortResharding (← readText) (← readFlag) (← readText)
  | 11 => return .startTransfer (← readText) (← readTransfer)
  | 12 => return .finishTransfer (← readText) (← readTransferKey) (← readWord64)
  | 13 => return .failTransfer (← readText) (← readTransferKey) (← readWord64) (← readText)
  | 14 => return .abortTransfer (← readText) (← readTransferKey)
  | 15 => return .dropReplica (← readText) (← readWord32) (← readWord64)
  | 16 => return .setReplicaState (← readText) (← readWord32) (← readWord64) (← readCase states)
  | found => throw (.alternative found 17)

def readEntry : Reader Entry := do
  readContent (← readWord32)

end ShardCluster.Wire

namespace ShardCluster.Entry

def toBytes (e : Entry) : Except Error Bytes :=
  match Wire.writeEntry e with
  | .ok bytes => .ok bytes
  | .error fault => .error (.serialization fault.message)

/-- Bytes after the entry are ignored. -/
def ofBytes (bytes : Bytes) : Except Error Entry :=
  match Wire.readEntry bytes with
  | .ok (e, _) => .ok e
  | .error fault => .error (.serialization fault.message)

end ShardCluster.Entry
