import ShardCluster.Proofs.Node.Copies
import ShardCluster.Proofs.Node.Reads
import ShardCluster.Proofs.Node.Requests
import ShardCluster.Proofs.Node.Writes
/-! Runs of a node: requests, writes, turns of the copies and their reports, in any order. Whatever
was written can be read in every state. -/
namespace ShardCluster
open SortedMap

/-- No two shards of a group claim a common position on its rings. -/
def Cluster.Apart (c : Cluster) : Prop :=
  ∀ coll ∈ c.collections.values, ∀ r ∈ coll.groups.values,
    Ring.Apart r.old.ring.perShard r.shards

instance (c : Cluster) : Decidable c.Apart :=
  inferInstanceAs (Decidable (∀ coll ∈ c.collections.values, ∀ r ∈ coll.groups.values,
    Ring.Apart r.old.ring.perShard r.shards))

theorem Cluster.Apart.face {c : Cluster} (h : c.Apart) (name : String) : (c.face name).Apart := by
  intro key r hg
  obtain ⟨coll, hcoll, hr⟩ := hg
  exact h coll (mem_values.2 ⟨name, hcoll⟩) r (mem_values.2 ⟨key, hr⟩)

theorem Face.Tended.new : Tended ⟨none, none, .none⟩ where
  alive := nofun
  fed := nofun
  staying _ _ h := by cases h
  even _ _ h := absurd h group_none

namespace Node
variable {allowed : Node → Timestamp → Request → Prop} {config : NodeConfig} {feed : Feed} {n : Node}
  {L : Ledger}

/-- The states of a node that starts without data, each with what was written up to then. What is
asked of the node is allowed in the state in which it is asked. -/
inductive Ran (allowed : Node → Timestamp → Request → Prop) (config : NodeConfig) (feed : Feed) :
    Node → Ledger → Prop
  | new : Ran allowed config feed (.new config {} feed) .empty
  | request {n : Node} {L : Ledger} (h : Ran allowed config feed n L) (now : Timestamp) (r : Request)
      (hr : allowed n now r) (ha : (n.handle now r).1.cluster.Apart) :
      Ran allowed config feed (n.handle now r).1 (L.within (n.handle now r).1.cluster)
  | wrote {n : Node} {L : Ledger} (h : Ran allowed config feed n L) (name : String)
      (key : Option ShardKey) (points : List Point) (hok : (n.upsert name key points).2 = .ok ()) :
      Ran allowed config feed (n.upsert name key points).1 (L.write name key points)
  | refused {n : Node} {L : Ledger} (h : Ran allowed config feed n L) (name : String)
      (key : Option ShardKey) (points : List Point) {e : Error}
      (he : (n.upsert name key points).2 = .error e) :
      Ran allowed config feed (n.upsert name key points).1 L
  | copied {n : Node} {L : Ledger} (h : Ran allowed config feed n L) (id : TaskId) :
      Ran allowed config feed { n with plane := (n.plane.advance id).1 } L
  /-- The copy has ended, at once before or long ago. -/
  | reported {n : Node} {L : Ledger} (h : Ran allowed config feed n L) {T : Task} {r : Report}
      (hT : T ∈ n.plane.tasks) (hr : DataPlane.reportOf T = some r)
      (ha : (n.settle T r).cluster.Apart) :
      Ran allowed config feed (n.settle T r) (L.within (n.settle T r).cluster)
  /-- The copy was stopped after it had ended; there is no such transfer any more. -/
  | late {n : Node} {L : Ledger} (h : Ran allowed config feed n L) {r : Report}
      (hr : ∀ t ∈ n.cluster.transfers r.collection, t.key = r.key → t.epoch ≠ r.epoch) :
      Ran allowed config feed (n.hear r).1 (L.within (n.hear r).1.cluster)

/-- The copies of a run have the settings of the node. -/
theorem Ran.uniform (h : Ran allowed config feed n L) : n.plane.Uniform config.copying := by
  induction h with
  | new => exact ⟨rfl, fun _ hT => by cases hT⟩
  | request _ _ _ _ _ ih => exact uniform_commit ih _ _
  | wrote _ name key points _ ih => exact uniform_upsert ih name key points
  | refused _ name key points _ ih => exact uniform_upsert ih name key points
  | copied _ id ih => exact ih.advance id
  | reported _ _ _ _ ih => exact (uniform_commit ih _ _).forget _
  | late _ _ ih => exact uniform_commit ih _ _

theorem Ran.paged (h : Ran allowed config feed n L) (hpos : 0 < config.copying.batchSize) :
    ∀ T ∈ n.plane.tasks, 0 < T.config.batchSize := fun T hT => by
  rw [h.uniform.tasks T hT]
  exact hpos

theorem Stocked.new (config : NodeConfig) (feed : Feed) :
    (Node.new config {} feed).Stocked .empty := by
  have hempty : ∀ name, (Node.new config {} feed).cluster.face name = ⟨none, none, .none⟩ :=
    fun _ => rfl
  refine ⟨.new _ _, rfl, List.nodup_nil, fun name => ?_, fun name => ?_⟩
  · rw [hempty]
    exact .new
  · rw [hempty]
    exact ⟨nofun, fun _ _ _ _ => rfl, fun _ _ _ _ _ _ h => absurd h Face.group_none,
      fun _ _ _ _ _ _ h => absurd h Face.group_none, fun T hT => by cases hT.1⟩

/-- Copies that read by pages that are not empty leave the replicas as they were written. -/
theorem Ran.stocked (h : Ran allowed config feed n L) (hpos : 0 < config.copying.batchSize)
    (hstates : ∀ n now r, allowed n now r → r.LeavesStates) : n.Stocked L := by
  induction h with
  | new => exact .new config feed
  | request _ _ _ hr ha ih => exact ih.handle (hstates _ _ _ hr) ha.face
  | wrote _ _ _ _ hok ih => exact ih.wrote hok
  | refused _ _ _ _ he ih =>
    rw [upsert_refused ih.faultless he]
    exact ih
  | copied h id ih => exact ih.copied (h.paged hpos) id
  | reported _ hT hr ha ih => exact ih.settle hT hr ha.face
  | late _ hr ih => exact ih.late hr

/-- Where the last readable replicas are spared, reads reach what was written. -/
theorem Ran.holds (h : Ran Admits config feed n L) (hpos : 0 < config.copying.batchSize) :
    n.Holds L := by
  have hstates : ∀ n now r, Admits n now r → r.LeavesStates := fun _ _ _ hr => hr.states
  refine ⟨h.stocked hpos hstates, ?_⟩
  induction h with
  | new => exact fun _ _ _ h => absurd h Face.group_none
  | request h _ _ hr _ ih => exact Holds.served_handle ⟨h.stocked hpos hstates, ih⟩ hr
  | wrote _ _ _ _ _ ih | refused _ _ _ _ _ ih =>
    rw [upsert_cluster]
    exact ih
  | copied _ _ ih => exact ih
  | reported h _ _ _ ih => exact Holds.served_hear ⟨h.stocked hpos hstates, ih⟩ _
  | late h _ ih => exact Holds.served_hear ⟨h.stocked hpos hstates, ih⟩ _

/-- A turn that the node gives to a copy is part of a run, with the report if the copy ends. -/
theorem ran_turn (h : Ran allowed config feed n L) (hpos : 0 < config.copying.batchSize)
    (hstates : ∀ n now r, allowed n now r → r.LeavesStates) (id : TaskId)
    (ha : (n.turn id).cluster.Apart) :
    Ran allowed config feed (n.turn id) (L.within (n.turn id).cluster) := by
  have hcopied := h.copied id
  cases hadvance : n.plane.advance id with
  | mk plane reply =>
    rw [hadvance] at hcopied
    cases reply with
    | none =>
      have hturn : n.turn id = { n with plane } := by rw [turn, hadvance]
      rw [hturn, (hcopied.stocked hpos hstates).within]
      exact hcopied
    | some r =>
      obtain ⟨T, htask, hT, hreport⟩ := DataPlane.advance_reports hadvance
      obtain ⟨hold, rfl⟩ := DataPlane.task?_eq_some htask
      have hturn : n.turn T.request.id =
          ({ n with plane } : Node).settle (T.turn n.plane.store).1 r := by
        rw [turn, hadvance, settle, (T.turn_same n.plane.store).1]
      rw [hturn] at ha ⊢
      exact hcopied.reported hT hreport ha

/-- In every state of a run whose copies do not read by empty pages, a point that was written, to a
group that is still there, is found with the payload that was written last. -/
theorem get_of_ran (hpos : 0 < config.copying.batchSize) (h : Ran Admits config feed n L)
    {name : String} {key : Option ShardKey} {id : PointId} {x : Bytes} (hx : L name key id = some x) :
    (n.get name key id).2 = .ok (some ⟨id, x⟩) :=
  (h.holds hpos).get hx

/-- One shard on the first of two peers, and two points in it. -/
def filled (config : NodeConfig) : Node :=
  let n := Node.new config {} {}
  let n := (n.handle .epoch (.addPeer 1)).1
  let n := (n.handle .epoch (.addPeer 2)).1
  let n := (n.handle .epoch (.createCollection "points" {})).1
  (n.upsert "points" none [⟨.num 1, [1]⟩, ⟨.num 3, [1]⟩]).1

/-- A second shard gets its points, of which one is written anew on the way. -/
def splitting (config : NodeConfig) : Node :=
  let n := ((filled config).handle .epoch
    (.startResharding "points" { direction := .up, peer := some 2 })).1
  let n := (n.upsert "points" none [⟨.num 1, [2]⟩]).1
  { n with plane := (n.plane.advance ("points", ⟨0, 1, 1, 2⟩)).1 }

def split (config : NodeConfig) : Node :=
  let n := (splitting config).settle (splitting config).plane.tasks.head!
    ⟨"points", ⟨0, 1, 1, 2⟩, 1, none⟩
  (n.handle .epoch (.commitRead "points")).1

def narrow : NodeConfig := { ringPositions := 2 }

/-- The first page of a copy is empty and ends it, and nobody compares. -/
def hasty : NodeConfig := { ringPositions := 2, copying := { batchSize := 0, verify := false } }

theorem ran_split (hc : config = narrow ∨ config = hasty) :
    ∃ L, Ran Admits config {} (split config) L ∧
      L "points" none (.num 1) = some [2] ∧ L "points" none (.num 3) = some [1] := by
  have hnew : Ran Admits config {} _ _ := .new
  -- every step is accepted with either config
  obtain rfl | rfl := hc
  all_goals
    have hfilled := (((hnew.request .epoch (.addPeer 1) ⟨nofun, nofun⟩ (by decide +kernel)).request
      .epoch (.addPeer 2) ⟨nofun, nofun⟩ (by decide +kernel)).request
      .epoch (.createCollection "points" {}) ⟨nofun, nofun⟩ (by decide +kernel)).wrote
      "points" none [⟨.num 1, [1]⟩, ⟨.num 3, [1]⟩] (by decide +kernel)
    have hsplitting := ((hfilled.request .epoch
      (.startResharding "points" { direction := .up, peer := some 2 }) ⟨nofun, nofun⟩
      (by decide +kernel)).wrote "points" none [⟨.num 1, [2]⟩] (by decide +kernel)).copied
      ("points", ⟨0, 1, 1, 2⟩)
    refine ⟨_, (hsplitting.reported (T := (splitting _).plane.tasks.head!)
      (r := ⟨"points", ⟨0, 1, 1, 2⟩, 1, none⟩) ?_ ?_ ?_).request .epoch (.commitRead "points")
      ⟨nofun, nofun⟩ ?_, ?_⟩
    all_goals decide +kernel

theorem get_split : ∃ L, Ran Admits narrow {} (split narrow) L ∧
    (split narrow).cluster.stage? "points" = some .awaitingWriteCommit ∧
    L "points" none (.num 1) = some [2] ∧
    ((split narrow).get "points" none (.num 1)).2 = .ok (some ⟨.num 1, [2]⟩) := by
  obtain ⟨L, hsplit, hx, -⟩ := ran_split (.inl rfl)
  exact ⟨L, hsplit, by decide +kernel, hx, get_of_ran (by decide) hsplit hx⟩

/-- A copy by empty pages brings nothing, and what its source had is not found. -/
theorem unread_hasty : ∃ L, Ran Admits hasty {} (split hasty) L ∧
    L "points" none (.num 3) = some [1] ∧
    ((split hasty).get "points" none (.num 3)).2 = .ok none := by
  obtain ⟨L, hsplit, -, hx⟩ := ran_split (.inr rfl)
  exact ⟨L, hsplit, hx, by decide +kernel⟩

end Node
end ShardCluster
