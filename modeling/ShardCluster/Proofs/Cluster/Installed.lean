import ShardCluster.Proofs.Cluster.PlanStart
/-! The start of a plan changes what the plan speaks of, and nothing else. -/
namespace ShardCluster
open SortedMap

/-- The active replicas of some shards are to be filled. -/
def Layout.refilled (l : Layout) (shards : List ShardId) : Layout :=
  fun q p => if q ∈ shards ∧ l q p = some .active then some .resharding else l q p

/-- The first transfer into each replica runs, and the others wait. -/
def Transfer.Scheduled (transfers : List Transfer) : Prop :=
  ∀ before t after, transfers = before ++ t :: after →
    t.status = if before.any (fun x => x.key.destination == t.key.destination) then .pending else .running

theorem Transfer.Scheduled.stamped {transfers : List Transfer} (h : Transfer.Scheduled transfers)
    (epoch : UInt64) : Transfer.Scheduled (transfers.map (fun t => { t with epoch })) := by
  intro before t after heq
  obtain ⟨before', rest, rfl, rfl, hrest⟩ := List.map_eq_append_iff.1 heq
  obtain ⟨t', after', rfl, rfl, rfl⟩ := List.map_eq_cons_iff.1 hrest
  rw [List.any_map]
  exact h before' t' after' rfl

namespace Cluster
open ReplicaTable
variable {c c' : Cluster} {name : String} {request : ReshardingRequest} {policy : RemovalPolicy}
  {now : Timestamp} {plan : Plan} {coll : Collection} {r : Router} {e : Effects}

theorem enlist_scheduled {done : List Transfer} (h : Transfer.Scheduled done) (key : TransferKey) :
    Transfer.Scheduled (enlist done key) := by
  intro before t after heq
  obtain rfl | ⟨after, last, rfl⟩ := List.eq_nil_or_concat after
  · obtain ⟨rfl, ht⟩ := List.append_inj' heq rfl
    obtain rfl := List.singleton_inj.1 ht
    rfl
  · have heq : enlist done key = (before ++ t :: after) ++ [last] := by
      rw [heq, List.concat_eq_append, List.append_assoc, List.cons_append]
    obtain ⟨hdone, -⟩ := List.append_inj' heq rfl
    exact h before t after hdone

theorem schedule_scheduled (keys : List TransferKey) : Transfer.Scheduled (schedule keys) := by
  have hfold : ∀ (keys : List TransferKey) (done : List Transfer), Transfer.Scheduled done →
      Transfer.Scheduled (keys.foldl enlist done) := by
    intro keys
    induction keys with
    | nil => exact fun _ h => h
    | cons key rest ih => exact fun done h => ih _ (enlist_scheduled h key)
  have hnil : Transfer.Scheduled [] := by
    intro before t after heq
    simp at heq
  exact hfold keys [] hnil

theorem plan_scheduled (h : c.plan name request policy now = .ok plan) :
    Transfer.Scheduled plan.transfers := by
  simp only [Cluster.plan, bind_eq_ok] at h
  obtain ⟨coll, -, -, -, -, -, x, -, h⟩ := h
  cases hd : request.direction with
  | up =>
    simp only [hd, bind_eq_ok, pure_eq_ok] at h
    obtain ⟨⟨shard, peer, keys⟩, -, rfl⟩ := h
    exact schedule_scheduled keys
  | down =>
    simp only [hd, bind_eq_ok, pure_eq_ok] at h
    obtain ⟨⟨shard, peer, keys⟩, -, rfl⟩ := h
    exact schedule_scheduled keys

/-- What the start of a plan does to a cluster, with `r` for the rings of the group before it and
`ring` for the one that is to come. -/
structure Installed (c : Cluster) (name : String) (plan : Plan) (coll : Collection) (r : Router)
    (ring : Ring) (c' : Cluster) (e : Effects) : Prop where
  changed : Router.changed r.old.ring plan.operation.change = .ok ring
  cluster : c' = { c with
    epoch := c.epoch + 1
    operations := c.operations.insert name { plan.operation with stage := .starting }
    collections := c.collections.insert name { coll with
      groups := coll.groups.insert plan.operation.key { r with new := some ⟨r.old.version + 1, ring⟩ }
      transfers := c.stamped plan }
    replicas := c'.replicas }
  effects : e = {
    spawn := ((c.stamped plan).filter (·.status == .running)).map
      (copyOf name { r with new := some ⟨r.old.version + 1, ring⟩ })
    started := [{ plan.operation with stage := .starting }] }
  scheduled : Transfer.Scheduled (c.stamped plan)
  /-- A shard comes that nothing used, with one replica. -/
  up : plan.operation.direction = .up →
    (∀ key x, coll.groups.get? key = some x → plan.operation.shard ∉ x.shards) ∧
    (∀ p, c.replicas.look name plan.operation.shard p = none) ∧
    Redrawn c.replicas c'.replicas name
      ((c.replicas.look name).put plan.operation.shard plan.operation.peer .resharding)
  /-- A shard goes, and the active replicas of the others take over. -/
  down : plan.operation.direction = .down → Redrawn c.replicas c'.replicas name
    ((c.replicas.look name).refilled (r.shards.filter (· != plan.operation.shard)))

/-- A start that is accepted, with all that it looks up. -/
theorem startResharding_ok (h : c.startResharding plan = .ok (c', e)) (hne : plan.transfers ≠ []) :
    ∃ coll r ring, c.collections.get? plan.operation.collection = some coll ∧
      coll.router plan.operation.key = .ok r ∧ Router.changed r.old.ring plan.operation.change = .ok ring ∧
      claimReplicas c.replicas plan.operation plan.transfers = .ok c'.replicas ∧
      c' = { c with
        epoch := c.epoch + 1
        operations :=
          c.operations.insert plan.operation.collection { plan.operation with stage := .starting }
        collections := c.collections.insert plan.operation.collection { coll with
          groups := coll.groups.insert plan.operation.key { r with new := some ⟨r.old.version + 1, ring⟩ }
          transfers := c.stamped plan }
        replicas := c'.replicas } ∧
      e = {
        spawn := ((c.stamped plan).filter (·.status == .running)).map
          (copyOf plan.operation.collection { r with new := some ⟨r.old.version + 1, ring⟩ })
        started := [{ plan.operation with stage := .starting }] } := by
  obtain ⟨-, -, coll, r, r', table, hc, -, hr, hr', htable, rfl, rfl⟩ := startResharding_eq_ok.1 h
  obtain ⟨-, ring, hring, rfl⟩ := Router.start_eq_ok.1 hr'
  refine ⟨coll, r, ring, hc, hr, hring, htable, ?_, rfl⟩
  rw [if_neg hne]
  rfl

/-- The replicas that a plan marks are the active ones of the shards that stay. -/
theorem Opens.claimed_down (b : Opens c name plan coll r) (hd : plan.operation.direction = .down) :
    (c.replicas.look name).claimed plan.operation plan.transfers =
      (c.replicas.look name).refilled (r.shards.filter (· != plan.operation.shard)) := by
  obtain ⟨-, hends, -, hall, -⟩ := b.fits.down hd
  have hiff : ∀ q p, (q, p) ∈ plan.transfers.map (·.key.destination) ↔
      q ∈ r.shards.filter (· != plan.operation.shard) ∧ c.replicas.look name q p = some .active := by
    intro q p
    rw [List.mem_map, List.mem_filter, bne_iff_ne]
    constructor
    · rintro ⟨t, ht, hdest⟩
      obtain ⟨rfl, rfl⟩ := Prod.mk.inj hdest
      obtain ⟨-, -, hin, hne, hactive⟩ := hends t ht
      exact ⟨⟨hin, hne⟩, hactive⟩
    · rintro ⟨⟨hin, hne⟩, hactive⟩
      exact hall q hin hne p hactive
  funext q p
  simp only [Layout.claimed, hd, Layout.marked, Layout.refilled, hiff]

theorem Opens.installed (b : Opens c name plan coll r) (hs : Transfer.Scheduled plan.transfers)
    (hx : c.apply (.startResharding plan) = .ok (c', e)) :
    ∃ ring, Installed c name plan coll r ring c' e := by
  obtain rfl := b.name_eq
  obtain ⟨coll', x, ring, hc, hr, hring, hclaim, hcluster, heffects⟩ := startResharding_ok hx b.transfers_ne
  obtain rfl := Option.some.inj (b.collection.symm.trans hc)
  obtain rfl := Except.ok.inj (b.router.symm.trans hr)
  obtain ⟨hdraw, -⟩ := claimReplicas_redrawn hclaim
  refine ⟨ring, hring, hcluster, heffects, hs.stamped _,
    fun hd => ⟨fun key x hx hin => ?_, b.fit.unhoused (b.fits.up hd).1, ?_⟩, fun hd => ?_⟩
  · have hfresh := (b.fits.up hd).1
    rw [Fit.shardSet_of_group hx hin] at hfresh
    cases hfresh
  · rwa [Layout.claimed, hd] at hdraw
  · rwa [b.claimed_down hd] at hdraw

/-- A plan is accepted by the cluster that it is made for, and changes just what it speaks of. -/
theorem installed_of_plan (h : Reached Planned c) (hp : c.plan name request policy now = .ok plan) :
    ∃ coll r ring c' e, c.collections.get? name = some coll ∧ coll.router request.key = .ok r ∧
      c.apply (.startResharding plan) = .ok (c', e) ∧ plan.operation.collection = name ∧
      plan.Answers c request r ∧ Installed c name plan coll r ring c' e := by
  obtain ⟨coll, r, _, c', e, b, ha, -, hopened⟩ := opened_of_plan h hp
  obtain ⟨ring, hi⟩ := b.installed (plan_scheduled hp) hopened.accepted
  exact ⟨coll, r, ring, c', e, b.collection, ha.key ▸ b.router, hopened.accepted, b.name_eq, ha, hi⟩

/-- Two shards are to give points to a third one, whose number and peer the plan chooses. -/
def enlarging : Except Error (Cluster × Plan) := do
  let c ← replay 1 1 [.addPeer 1, .addPeer 2,
    .createCollection "points" {} (.ofList [(0, [1]), (4, [1, 2])]), .setReplicaState "points" 4 2 .dead]
  return (c, ← c.plan "points" { direction := .up } .last .epoch)

theorem installed_enlarging : ∃ c plan, enlarging = .ok (c, plan) ∧ plan.operation.shard = 5 ∧
    plan.transfers = [⟨⟨0, 5, 1, 2⟩, .slice, .running, 0⟩, ⟨⟨4, 5, 1, 2⟩, .slice, .pending, 0⟩] ∧
    ∃ coll r ring c' e, c.apply (.startResharding plan) = .ok (c', e) ∧
      Installed c "points" plan coll r ring c' e := by
  have hrun : enlarging.toOption.map (fun x => (x.2.operation.shard, x.2.transfers)) =
      some (5, [⟨⟨0, 5, 1, 2⟩, .slice, .running, 0⟩, ⟨⟨4, 5, 1, 2⟩, .slice, .pending, 0⟩]) := by
    decide +kernel
  obtain ⟨⟨c, plan⟩, hok, hrun⟩ := toOption_map_eq_some.1 hrun
  obtain ⟨hshard, htransfers⟩ := Prod.mk.inj hrun
  refine ⟨c, plan, hok, hshard, htransfers, ?_⟩
  simp only [enlarging, bind_eq_ok, pure_eq_ok, Prod.mk.injEq] at hok
  obtain ⟨c₀, hfound, _, hplan, rfl, rfl⟩ := hok
  have hnew : Reached Planned (.new 1 1) := .new 1 1
  have hreached : Reached Planned c₀ := hnew.applyAll (by simp [Planned]) hfound
  obtain ⟨coll, r, ring, c', e, -, -, hx, -, -, hi⟩ := installed_of_plan hreached hplan
  exact ⟨coll, r, ring, c', e, hx, hi⟩

end Cluster
end ShardCluster
