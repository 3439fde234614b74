import ShardCluster.Copy.Task
import ShardCluster.Metrics.Basic
/-! The store with the copies that run over it. A round gives every waiting copy one turn. -/
namespace ShardCluster

abbrev TaskId := String × TransferKey

def CopyRequest.id (r : CopyRequest) : TaskId := (r.collection, r.key)

/-- How a copy ended, for those who scheduled it. -/
structure Report where
  collection : String
  key : TransferKey
  epoch : UInt64
  /-- Why it failed, if it did. -/
  failure : Option String
  deriving DecidableEq, Repr, Inhabited

structure DataPlane where
  config : CopyConfig
  store : FaultyStore := {}
  /-- In the order in which they wait for their turn. -/
  tasks : List Task := []
  metrics : Metrics := {}
  deriving Inhabited

namespace DataPlane

def task? (d : DataPlane) (id : TaskId) : Option Task := d.tasks.find? (·.request.id == id)

def isRunning (d : DataPlane) (id : TaskId) : Bool := (d.task? id).isSome

def progress (d : DataPlane) (id : TaskId) : Option Checkpoint := (d.task? id).map (·.checkpoint)

/-- Start a copy, unless one with the same ends is running. -/
def start (d : DataPlane) (r : CopyRequest) : DataPlane :=
  if d.isRunning r.id then d
  else
    { d with
      tasks := d.tasks ++ [{ request := r, config := d.config }]
      metrics := d.metrics.transferStarted }

def forget (d : DataPlane) (id : TaskId) : DataPlane :=
  { d with tasks := d.tasks.filter (·.request.id != id) }

/-- Stop a copy; it applies nothing more and reports nothing. -/
def cancel (d : DataPlane) (id : TaskId) : DataPlane :=
  match d.task? id with
  | some t =>
    let d := d.forget id
    match t.phase with
    | .ended _ => d
    | _ => { d with metrics := d.metrics.transferCancelled }
  | none => d

def cancelAll (d : DataPlane) : DataPlane :=
  (d.tasks.map (·.request.id)).foldl cancel d

/-- Count what a turn has done. -/
def tally (before after : Task) (m : Metrics) : Metrics :=
  let m := (m.retried (after.retries - before.retries)).copied (after.copied - before.copied)
  match after.outcome? with
  | some .finished => m.transferFinished ⟨0⟩
  | some (.failed _) => m.transferFailed
  | none => m

def reportOf (t : Task) : Option Report :=
  match t.outcome? with
  | some .finished => some ⟨t.request.collection, t.request.key, t.request.epoch, none⟩
  | some (.failed why) =>
    some ⟨t.request.collection, t.request.key, t.request.epoch, some why.message⟩
  | none => none

/-- Give a copy its turn. One that ends has a report, and stays until that has been heard. -/
def advance (d : DataPlane) (id : TaskId) : DataPlane × Option Report :=
  match d.task? id with
  | some t =>
    let (t', store) := t.turn d.store
    ({ d with
        store
        tasks := d.tasks.map (fun x => if x.request.id = id then t' else x)
        metrics := tally t t' d.metrics },
      reportOf t')
  | none => (d, none)

/-- The copies that wait for a turn. -/
def waiting (d : DataPlane) : List TaskId := d.tasks.map (·.request.id)

end DataPlane

/-- A data plane by itself, whose reports are kept for who asks. -/
structure Engine where
  plane : DataPlane
  /-- Whether anyone still hears the reports. -/
  heard : Bool := true
  reports : List Report := []
  deriving Inhabited

namespace Engine

def turn (e : Engine) (id : TaskId) : Engine :=
  match e.plane.advance id with
  | (plane, some r) =>
    { e with plane := plane.forget id, reports := if e.heard then e.reports ++ [r] else e.reports }
  | (plane, none) => { e with plane }

/-- Hand over the reports kept since the last time; `none` once nobody hears them. -/
def collect (e : Engine) : Engine × Option (List Report) :=
  ({ e with reports := [] }, if e.heard then some e.reports else none)

def round (e : Engine) : Engine := e.plane.waiting.foldl turn e

/-- Run rounds until none waits, at most so many; returns how many there were. -/
def run : Nat → Engine → Engine × Nat
  | 0, e => (e, 0)
  | n + 1, e =>
    if e.plane.waiting.isEmpty then (e, 0)
    else
      let (e, k) := run n e.round
      (e, k + 1)

end Engine
end ShardCluster
