import ShardCluster.Cluster.Apply
import ShardCluster.Cluster.Planning
import ShardCluster.Copy.DataPlane
import ShardCluster.Log
import ShardCluster.Placement
/-! A node: the committed description of the cluster, the log, and the data plane. Every change takes
one path: decide an entry, try it on a copy, append it to the log, publish the copy, carry out the
effects. -/
namespace ShardCluster

/-- Who asks for a commit. -/
inductive Origin where
  | request | report
  deriving DecidableEq, Repr, Inhabited

structure Node where
  config : NodeConfig
  cluster : Cluster
  log : Log := {}
  plane : DataPlane
  feed : Feed := {}
  deriving Inhabited

namespace Node

def build (config : NodeConfig) (cluster : Cluster) (log : Log) (store : FaultyStore) (feed : Feed) :
    Node :=
  { config, cluster, log, feed, plane := { config := config.copying, store } }

def new (config : NodeConfig) (store : FaultyStore) (feed : Feed) : Node :=
  build config (.new config.peer config.ringPositions) {} store feed

def count (n : Node) (f : Metrics → Metrics) : Node :=
  { n with plane := { n.plane with metrics := f n.plane.metrics } }

/-- Clean up the data of a replica; a failure leaves the data where it is. -/
def cleanUp (d : DataPlane) : Cleanup → DataPlane
  | .drop l => { d with store := (d.store.drop l).1 }
  | .delete l slice => { d with store := (d.store.delete l slice).1 }

def planeEffects (d : DataPlane) (e : Effects) : DataPlane :=
  let d := e.cancel.foldl DataPlane.cancel d
  let d := e.cleanup.foldl cleanUp d
  e.spawn.foldl DataPlane.start d

def countEffects (m : Metrics) (e : Effects) : Metrics :=
  let m := e.started.foldl (fun m _ => m.operationStarted) m
  let m := e.finished.foldl (fun m _ => m.operationFinished) m
  e.aborted.foldl (fun m a => m.operationAborted a.forced) m

def execute (n : Node) (e : Effects) : Node :=
  let plane := planeEffects n.plane e
  { n with
    plane := { plane with metrics := countEffects plane.metrics e }
    feed := e.events.foldl Feed.publish n.feed }

def refuse (n : Node) : Origin → Node
  | .request => n.count Metrics.requestRejected
  | .report => n.count Metrics.reportRejected

/-- The entry decided on, the cluster after it, and its effects. -/
def stage (c : Cluster) (decide : Cluster → Except Error Entry) :
    Except Error (Entry × Cluster × Effects) := do
  let entry ← decide c
  let (after, effects) ← c.apply entry
  return (entry, after, effects)

def commit (n : Node) (origin : Origin) (decide : Cluster → Except Error Entry) :
    Node × Except Error Unit :=
  match stage n.cluster decide with
  | .error e => (n.refuse origin, .error e)
  | .ok (entry, cluster, effects) =>
    match n.log.append entry with
    | (log, .error e) => ({ n with log }, .error e)
    | (log, .ok _) => ({ n with log, cluster }.execute effects, .ok ())

/-- Hear how a copy ended. -/
def hear (n : Node) (r : Report) : Node × Except Error Unit :=
  n.commit .report (fun _ => .ok
    (match r.failure with
      | none => .finishTransfer r.collection r.key r.epoch
      | some reason => .failTransfer r.collection r.key r.epoch reason))

/-- Give one copy its turn, and hear its report if it ends. -/
def turn (n : Node) (id : TaskId) : Node :=
  match n.plane.advance id with
  | (plane, none) => { n with plane }
  | (plane, some r) =>
    let (n, _) := { n with plane }.hear r
    { n with plane := n.plane.forget id }

def round (n : Node) : Node := n.plane.waiting.foldl turn n

/-- Run rounds until none waits, at most so many; returns how many there were. -/
def run : Nat → Node → Node × Nat
  | 0, n => (n, 0)
  | k + 1, n =>
    if n.plane.waiting.isEmpty then (n, 0)
    else
      let (n, used) := run k n.round
      (n, used + 1)

def shutdown (n : Node) : Node := { n with plane := n.plane.cancelAll }

/-- Make a node from a log, and take up the copies that were running. -/
def recover (config : NodeConfig) (log : Log) (store : FaultyStore) (feed : Feed) :
    Except Error Node := do
  let cluster ← Cluster.replay config.peer config.ringPositions (← log.entries)
  let copies ← cluster.runningCopies
  let n := build config cluster log store feed
  return { n with plane := copies.foldl DataPlane.start n.plane }

end Node
end ShardCluster
