import ShardCluster.Config
import ShardCluster.Effects
import ShardCluster.Store.Faults
/-! One copy in progress. A task reads its source page by page, writes the points of its slice to the
destination, and at last checks that they are all there. Each step makes one call of the store; a
step that a storage fault spoils is tried again. -/
namespace ShardCluster

inductive Outcome where
  | finished | failed (why : Error)
  deriving DecidableEq, Repr, Inhabited

/-- What a task does next; `attempt` counts the tries of the step that have failed. -/
inductive Phase where
  | fetch (attempt : Nat)
  | apply (page : Page) (attempt : Nat)
  | surveySource (attempt : Nat)
  | surveyTarget (expected : List Point) (attempt : Nat)
  | ended (outcome : Outcome)
  deriving DecidableEq, Repr, Inhabited

/-- How far the destination has acknowledged what it got. -/
structure Checkpoint where
  offset : Option PointId := none
  batches : Nat := 0
  points : Nat := 0
  deriving DecidableEq, Repr, Inhabited

structure Task where
  request : CopyRequest
  config : CopyConfig
  checkpoint : Checkpoint := {}
  phase : Phase := .fetch 0
  /-- Steps that were tried again. -/
  retries : Nat := 0
  /-- Points that were written to the destination. -/
  copied : Nat := 0
  deriving DecidableEq, Inhabited

namespace Task

def source (t : Task) : Location := t.request.key.sourceLocation t.request.collection
def target (t : Task) : Location := t.request.key.targetLocation t.request.collection

/-- The points of a page that the task copies. -/
def selected (t : Task) (page : Page) : List Point :=
  page.points.filter (fun p => Slice.admits t.request.slice p.id)

/-- Try a step once more, or give up. -/
def retry (t : Task) (step : String) (attempt : Nat) (e : Error) (again : Nat → Phase) : Task :=
  if e.retryable && attempt < t.config.maxRetries then
    { t with phase := again (attempt + 1), retries := t.retries + 1 }
  else
    { t with phase :=
        .ended (.failed (.transferFailed (.exhausted step (attempt + 1) e.message))) }

/-- The page is on the destination: move the checkpoint to its last point. -/
def acknowledge (t : Task) (page : Page) : Task :=
  let checkpoint := match page.points.getLast? with
    | some p =>
      { offset := some p.id, batches := t.checkpoint.batches + 1
        points := t.checkpoint.points + (t.selected page).length }
    | none => t.checkpoint
  let phase := if !page.isFinal then .fetch 0
    else if t.config.verify then .surveySource 0
    else .ended .finished
  { t with checkpoint, phase, copied := t.copied + (t.selected page).length }

def fetched (t : Task) (attempt : Nat) : Except Error Page → Task
  | .ok page =>
    if (t.selected page).isEmpty then t.acknowledge page else { t with phase := .apply page 0 }
  | .error e => t.retry "fetch" attempt e .fetch

def applied (t : Task) (page : Page) (attempt : Nat) : Except Error Unit → Task
  | .ok () => t.acknowledge page
  | .error e => t.retry "apply" attempt e (.apply page)

def surveyed (t : Task) (attempt : Nat) : Except Error (List Point) → Task
  | .ok expected => { t with phase := .surveyTarget expected 0 }
  | .error e => t.retry "verify" attempt e .surveySource

/-- Every expected point must be there; payloads are not compared. -/
def compared (t : Task) (expected : List Point) (attempt : Nat) : Except Error (List Point) → Task
  | .ok present =>
    let missing := expected.filter (fun p => !present.any (·.id == p.id))
    if missing.isEmpty && expected.length ≤ present.length then
      { t with phase := .ended .finished }
    else
      { t with phase := .ended (.failed (.transferFailed
          (.missingPoints missing.length expected.length t.target))) }
  | .error e => t.retry "verify" attempt e (.surveyTarget expected)

section
variable {σ : Type} [PointStore σ]

/-- One call of the store, and what the task makes of the answer. -/
def step (t : Task) (s : σ) : Task × σ :=
  match t.phase with
  | .fetch attempt =>
    let (s, reply) := PointStore.fetch s t.source t.checkpoint.offset t.config.batchSize
    (t.fetched attempt reply, s)
  | .apply page attempt =>
    let (s, reply) := PointStore.upsert s t.target (t.selected page)
    (t.applied page attempt reply, s)
  | .surveySource attempt =>
    let (s, reply) := PointStore.scroll s t.source t.request.slice
    (t.surveyed attempt reply, s)
  | .surveyTarget expected attempt =>
    let (s, reply) := PointStore.scroll s t.target t.request.slice
    (t.compared expected attempt reply, s)
  | .ended _ => (t, s)

/-- Whether the next step is a fetch, or there is none. -/
def pausing (t : Task) : Bool :=
  match t.phase with
  | .fetch _ | .ended _ => true
  | _ => false

/-- Step until the task is about to fetch, or ends. -/
def settle : Nat → Task → σ → Task × σ
  | 0, t, s => (t, s)
  | fuel + 1, t, s =>
    if t.pausing then (t, s)
    else
      let (t, s) := t.step s
      settle fuel t s

/-- A fetch, and all that follows before the next one: at most three steps, each tried at most once
more than the retries allow. -/
def turn (t : Task) (s : σ) : Task × σ :=
  let (t, s) := t.step s
  settle (3 * (t.config.maxRetries + 1)) t s

end

def outcome? (t : Task) : Option Outcome :=
  match t.phase with
  | .ended outcome => some outcome
  | _ => none

/-- What a copy that has ended gives back: the number of points it has copied. -/
def result? (t : Task) : Option (Except Error Nat) :=
  t.outcome?.map fun
    | .finished => .ok t.copied
    | .failed why => .error why

end Task
end ShardCluster
