import ShardCluster.Proofs.Node.Runs
/-! What the replicas hold while a collection is quiet. Any peer may have been removed by force: what
it took with it nobody has, and the replicas that are left hold no more and no less than they should. -/
namespace ShardCluster
open SortedMap

/-- Without operation and transfers a replica holds what was written and what the ring gives it. -/
theorem Face.Keeps.quiet {F : Face} {D : Holdings} {key : Option ShardKey} {r : Router} {q : ShardId}
    {p : PeerId} (h : F.Keeps D) (hf : F.Fits) (ho : F.operation = none) (ht : F.transfers = [])
    (hg : F.Group key r) (hq : q ∈ r.shards) (hl : (F.look q p).isSome) (id : PointId) :
    D.held q p id = if r.routeRead id = some q then D.written key id else none := by
  have hi : r.Idle := by
    obtain ⟨hi, -⟩ | ⟨o, hop, -⟩ := hf.phase hg
    · exact hi
    · cases ho.symm.trans hop
  have hserves : r.Serves id q ↔ r.routeRead id = some q := by
    rw [hi.serves, Router.routeRead, hi.read]
    rfl
  cases hx : D.held q p id with
  | some x =>
    obtain ⟨hw, hs⟩ := h.current key r q p id x hg hq hx
    rw [if_pos (hserves.1 hs), hw]
  | none =>
    split
    · rename_i hs
      cases hw : D.written key id with
      | none => rfl
      | some x =>
        obtain hheld | ⟨t, hin, -⟩ := h.complete key r q p id x hg (hserves.2 hs) hl hw
        · cases hx.symm.trans hheld
        · rw [ht] at hin
          cases hin
    · rfl

namespace Node
variable {allowed allowed' : Node → Timestamp → Request → Prop} {config : NodeConfig} {feed : Feed}
  {n : Node} {L : Ledger}

/-- A run is one of those in which more is allowed. -/
theorem Ran.mono (h : Ran allowed config feed n L)
    (hallowed : ∀ n now r, allowed n now r → allowed' n now r) : Ran allowed' config feed n L := by
  induction h with
  | new => exact .new
  | request _ now r hr ha ih => exact ih.request now r (hallowed _ now r hr) ha
  | wrote _ name key points hok ih => exact ih.wrote name key points hok
  | refused _ name key points he ih => exact ih.refused name key points he
  | copied _ id ih => exact ih.copied id
  | reported _ hT hr ha ih => exact ih.reported hT hr ha
  | late _ hr ih => exact ih.late hr

/-- What is not a replica holds nothing, in any state. -/
theorem Stocked.replica_empty (h : n.Stocked L) {l : Location}
    (hl : n.cluster.replicas.contains l.collection l.shard l.peer = false) :
    n.plane.store.store.replica l = .empty := by
  have hnone : n.cluster.replicas.look l.collection l.shard l.peer = none := by
    rw [ReplicaTable.contains_eq] at hl
    simpa using hl
  exact ext_get? fun id => (h.keeps l.collection).placed l.shard l.peer id hnone

/-- In a quiet collection the replicas hold what was written, each the points that the ring of its
group gives its shard. Any peer may have been removed; no state of a replica was set by hand, and no
copy reads by empty pages. -/
theorem quiet_of_ran (hpos : 0 < config.copying.batchSize)
    (h : Ran (fun _ _ r => r.LeavesStates) config feed n L) :
    (∀ l : Location, n.cluster.replicas.contains l.collection l.shard l.peer = false →
      n.plane.store.store.replica l = .empty) ∧
    ∀ name coll, n.cluster.collections.get? name = some coll → n.cluster.operation? name = none →
      coll.transfers = [] → ∀ q p, n.cluster.replicas.contains name q p = true →
        (∃ key r, coll.groups.get? key = some r ∧ q ∈ r.shards) ∧
        ∀ key r, coll.groups.get? key = some r → q ∈ r.shards → ∀ id,
          (n.plane.store.store.replica ⟨name, p, q⟩).get? id =
            if r.routeRead id = some q then L name key id else none := by
  have hstocked := h.stocked hpos fun _ _ _ hr => hr
  refine ⟨fun l hl => hstocked.replica_empty hl, fun name coll hcoll ho ht q p hl => ?_⟩
  have hf := hstocked.reached.fits name
  rw [ReplicaTable.contains_eq] at hl
  refine ⟨Collection.contains_shardSet.1 ((hf.fit coll hcoll).housed q p hl), ?_⟩
  intro key r hr hq id
  have htransfers : (n.cluster.face name).transfers = [] := by
    rw [Face.transfers, Cluster.face, hcoll]
    exact ht
  exact (hstocked.keeps name).quiet hf ho htransfers ⟨coll, hcoll, hr⟩ hq hl id

/-- The split is over. -/
def settled (config : NodeConfig) : Node :=
  let n := ((split config).handle .epoch (.commitWrite "points")).1
  (n.handle .epoch (.finishResharding "points")).1

/-- The first peer is removed by force with the only replica of its shard. -/
def lone : Node :=
  let n := ((settled narrow).upsert "points" none [⟨.num 4, [3]⟩]).1
  (n.handle .epoch (.removePeer 1 true)).1

theorem ran_settled (hc : config = narrow ∨ config = hasty) :
    ∃ L, Ran (fun _ _ r => r.LeavesStates) config {} (settled config) L ∧
      L "points" none (.num 3) = some [1] := by
  obtain ⟨L, hsplit, -, hx⟩ := ran_split hc
  have hfree : Ran (fun _ _ r => r.LeavesStates) config {} (split config) L :=
    hsplit.mono fun _ _ _ hr => hr.states
  obtain rfl | rfl := hc
  all_goals
    have hwritten := hfree.request .epoch (.commitWrite "points") nofun (by decide +kernel)
    have hsettled := hwritten.request .epoch (.finishResharding "points") nofun (by decide +kernel)
    refine ⟨_, hsettled, ?_⟩
    rw [Ledger.within_of_isOk (by decide +kernel), Ledger.within_of_isOk (by decide +kernel), hx]

theorem quiet_lone : ∃ L, Ran (fun _ _ r => r.LeavesStates) narrow {} lone L ∧
    lone.plane.store.store.replica ⟨"points", 1, 0⟩ = .empty ∧
    ∃ coll r, lone.cluster.collections.get? "points" = some coll ∧
      lone.cluster.operation? "points" = none ∧ coll.transfers = [] ∧
      lone.cluster.replicas.contains "points" 1 2 = true ∧
      coll.groups.get? none = some r ∧ 1 ∈ r.shards ∧
      L "points" none (.num 1) = some [2] ∧
      ∀ id, (lone.plane.store.store.replica ⟨"points", 2, 1⟩).get? id =
        if r.routeRead id = some 1 then L "points" none id else none := by
  obtain ⟨L, hsettled, -⟩ := ran_settled (.inl rfl)
  have hlone : Ran (fun _ _ r => r.LeavesStates) narrow {} lone _ :=
    (hsettled.wrote "points" none [⟨.num 4, [3]⟩] (by decide +kernel)).request
      .epoch (.removePeer 1 true) nofun (by decide +kernel)
  obtain ⟨hempty, hquiet⟩ := quiet_of_ran (by decide) hlone
  let coll := (lone.cluster.collections.get? "points").get!
  let r := (coll.groups.get? none).get!
  have hcoll : lone.cluster.collections.get? "points" = some coll := by decide +kernel
  have hop : lone.cluster.operation? "points" = none := by decide +kernel
  have htransfers : coll.transfers = [] := by decide +kernel
  have hreplica : lone.cluster.replicas.contains "points" 1 2 = true := by decide +kernel
  have hr : coll.groups.get? none = some r := by decide +kernel
  have hmem : 1 ∈ r.shards := by decide +kernel
  have hheld := (hquiet "points" coll hcoll hop htransfers 1 2 hreplica).2 none r hr hmem
  -- the point that was written anew on the way has its last payload
  have hlast := hheld (.num 1)
  rw [if_pos (by decide +kernel)] at hlast
  exact ⟨_, hlone, hempty ⟨"points", 1, 0⟩ (by decide +kernel), coll, r, hcoll, hop, htransfers,
    hreplica, hr, hmem, hlast.symm.trans (by decide +kernel), hheld⟩

/-- A copy by empty pages has brought nothing, and the new shard lacks a point that the ring gives
it. -/
theorem short_hasty : ∃ L, Ran (fun _ _ r => r.LeavesStates) hasty {} (settled hasty) L ∧
    ∃ coll r, (settled hasty).cluster.collections.get? "points" = some coll ∧
      (settled hasty).cluster.operation? "points" = none ∧ coll.transfers = [] ∧
      (settled hasty).cluster.replicas.contains "points" 1 2 = true ∧
      coll.groups.get? none = some r ∧ 1 ∈ r.shards ∧ r.routeRead (.num 3) = some 1 ∧
      L "points" none (.num 3) = some [1] ∧
      ((settled hasty).plane.store.store.replica ⟨"points", 2, 1⟩).get? (.num 3) = none := by
  obtain ⟨L, hsettled, hx⟩ := ran_settled (.inr rfl)
  let coll := ((settled hasty).cluster.collections.get? "points").get!
  exact ⟨L, hsettled, coll, (coll.groups.get? none).get!, by decide +kernel, by decide +kernel,
    by decide +kernel, by decide +kernel, by decide +kernel, by decide +kernel, by decide +kernel,
    hx, by decide +kernel⟩

end Node
end ShardCluster
