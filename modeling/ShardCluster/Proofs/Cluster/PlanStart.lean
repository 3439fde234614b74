import ShardCluster.Proofs.Cluster.Ready
import ShardCluster.Proofs.Cluster.References
/-! A plan can be carried out: the cluster that it is made for takes its start. -/
namespace ShardCluster
open SortedMap

/-- How a plan meets the request for it, in a group at rest. -/
structure Plan.Answers (plan : Plan) (c : Cluster) (request : ReshardingRequest) (r : Router) : Prop where
  direction : plan.operation.direction = request.direction
  key : plan.operation.key = request.key
  shard : ∀ s, request.shard = some s → s = plan.operation.shard
  /-- Every shard of the group is copied from once. -/
  up : plan.operation.direction = .up → c.peers.contains plan.operation.peer = true ∧
    plan.transfers.map (·.key.shard) = r.shards
  down : plan.operation.direction = .down → plan.operation.shard ∈ r.shards ∧ 1 < r.shards.length

namespace Cluster
open ReplicaTable
variable {c c' : Cluster} {name : String} {request : ReshardingRequest} {policy : RemovalPolicy}
  {now : Timestamp} {plan : Plan}

theorem plan_answers (h : c.plan name request policy now = .ok plan) {r : Router}
    (hr : c.router name plan.operation.key = .ok r) : plan.Answers c request r := by
  simp only [Cluster.plan, bind_eq_ok, collection_eq_ok] at h
  obtain ⟨coll, hc, -, -, -, -, x, hx, h⟩ := h
  have hsame : plan.operation.key = request.key → x = r := by
    intro hk
    obtain ⟨_, hc', hr⟩ := router_eq_ok.1 hr
    obtain rfl := Option.some.inj (hc.symm.trans hc')
    exact Except.ok.inj (hx.symm.trans (hk ▸ hr))
  cases hd : request.direction with
  | up =>
    simp only [hd, bind_eq_ok, pure_eq_ok] at h
    obtain ⟨⟨shard, peer, keys⟩, hup, rfl⟩ := h
    obtain rfl := hsame rfl
    obtain ⟨-, hgather, hpeer, hshard⟩ := planUp_ok hup
    obtain ⟨_, rfl, hmap, -⟩ := gather_ok hgather
    refine ⟨hd.symm, rfl, hshard, fun _ => ⟨hpeer, ?_⟩, fun h => by cases h⟩
    have hkeys := (schedule_spec ([] ++ keys)).1
    calc (schedule ([] ++ keys)).map (·.key.shard)
        = ((schedule ([] ++ keys)).map (·.key)).map (·.shard) := by rw [List.map_map]; rfl
      _ = x.shards := by rw [hkeys, List.nil_append, hmap]
  | down =>
    simp only [hd, bind_eq_ok, pure_eq_ok] at h
    obtain ⟨⟨shard, peer, keys⟩, hdown, rfl⟩ := h
    obtain rfl := hsame rfl
    obtain ⟨hlen, -, -, hin, hshard⟩ := planDown_ok hdown
    exact ⟨hd.symm, rfl, hshard, (fun h => by cases h), fun _ => ⟨hin, hlen⟩⟩

/-- What a plan finds in the cluster that it is made for. -/
structure Opens (c : Cluster) (name : String) (plan : Plan) (coll : Collection) (r : Router) : Prop where
  name_eq : plan.operation.collection = name
  collection : c.collections.get? name = some coll
  idle : c.operations.get? name = none
  transfers : coll.transfers = []
  router : coll.router plan.operation.key = .ok r
  rest : r.Idle
  fits : plan.Fits coll (c.replicas.look name) r
  fit : Fit coll none (c.replicas.look name)

theorem Opens.of_plan (h : Reached Planned c) (hp : c.plan name request policy now = .ok plan) :
    ∃ coll r, Opens c name plan coll r := by
  obtain ⟨hname, hidle, coll, r, hc, ht, hr, hfits⟩ := plan_fits hp
  have hface : c.face name = ⟨some coll, none, c.replicas.look name⟩ := by rw [face, hc, hidle]
  have hf := h.fits name
  rw [hface] at hf
  exact ⟨coll, r, hname, hc, hidle, ht, hr, hf.agrees.rests (Collection.router_eq_ok.1 hr).2, hfits,
    hf.fit coll rfl⟩

namespace Opens
variable {coll : Collection} {r : Router} (b : Opens c name plan coll r)
include b

theorem cluster_router : c.router name plan.operation.key = .ok r :=
  router_eq_ok.2 ⟨coll, b.collection, b.router⟩

theorem face : c.face name = ⟨some coll, none, c.replicas.look name⟩ := by
  rw [Cluster.face, b.collection, b.idle]

/-- Every shard of the group can be copied from. -/
theorem hosted {q : ShardId} (hq : q ∈ r.shards) : ∃ p, c.replicas.look name q p = some .active := by
  cases hd : plan.operation.direction with
  | up =>
    obtain ⟨-, hends, hall⟩ := b.fits.up hd
    obtain ⟨t, ht, rfl⟩ := hall q hq
    exact ⟨t.key.source, (hends t ht).2.2⟩
  | down =>
    obtain ⟨hleaving, -, hactive, -⟩ := b.fits.down hd
    by_cases hne : q = plan.operation.shard
    · exact ⟨_, hne ▸ hleaving⟩
    · exact hactive q hq hne

/-- A group in which something can change gives points to be copied. -/
theorem transfers_ne : plan.transfers ≠ [] := by
  obtain ⟨q, hq⟩ := b.fit.parted.filled (Collection.router_eq_ok.1 b.router).2
  cases hd : plan.operation.direction with
  | up =>
    obtain ⟨t, ht, -⟩ := (b.fits.up hd).2.2 q (b.rest.mem_shards.2 hq)
    exact List.ne_nil_of_mem ht
  | down =>
    obtain ⟨-, -, hactive, hall, q, hq, hne⟩ := b.fits.down hd
    obtain ⟨p, hl⟩ := hactive q hq hne
    obtain ⟨t, ht, -⟩ := hall q hq hne p hl
    exact List.ne_nil_of_mem ht

/-- A shard that is to come is not in the ring yet. -/
theorem fresh (hd : plan.operation.direction = .up) :
    r.old.ring.contains plan.operation.shard = false := by
  cases hin : r.old.ring.contains plan.operation.shard with
  | false => rfl
  | true =>
    have hown := Fit.shardSet_of_group (Collection.router_eq_ok.1 b.router).2
      (b.rest.mem_shards.2 hin)
    rw [(b.fits.up hd).1] at hown
    cases hown

/-- The ring of the group takes the change. -/
theorem start_ok (ha : plan.Answers c request r) : ∃ r', r.start plan.operation.change = .ok r' := by
  have hchanged : ∃ ring, Router.changed r.old.ring plan.operation.change = .ok ring := by
    cases hd : plan.operation.direction with
    | up => exact ⟨_, Router.changed_eq_ok.2 (.inl ⟨hd, b.fresh hd, rfl⟩)⟩
    | down =>
      obtain ⟨hin, hlen⟩ := ha.down hd
      have hsize : r.old.ring.size ≠ 1 := by
        have hshards : r.shards = r.old.ring.shards.toList := by
          rw [Router.shards, Router.shardSet, b.rest.new]
        have hlength : r.shards.length = r.old.ring.size := by
          rw [hshards]
          exact List.length_map ..
        omega
      exact ⟨_, Router.changed_eq_ok.2 (.inr ⟨hd, b.rest.mem_shards.1 hin, hsize, rfl⟩)⟩
  obtain ⟨ring, hring⟩ := hchanged
  exact ⟨_, Router.start_eq_ok.2 ⟨b.rest.resharding, ring, hring, rfl⟩⟩

/-- The collection takes any replica. -/
theorem insert_ok (hs : c.Sound) (q : ShardId) (p : PeerId) (s : ReplicaState) :
    ∃ table, c.replicas.insert name q p s = .ok table := by
  refine ReplicaTable.insert_ok ?_ q p s
  rw [hs.registered]
  exact contains_iff.2 ⟨coll, b.collection⟩

theorem claim_ok (hs : c.Sound) :
    ∃ table, claimReplicas c.replicas plan.operation plan.transfers = .ok table := by
  cases hd : plan.operation.direction with
  | up =>
    simp only [claimReplicas, hd, b.name_eq]
    exact b.insert_ok hs _ _ _
  | down =>
    rw [claimReplicas_down hd, b.name_eq]
    refine mark_ok _ fun x hx => ?_
    obtain ⟨t, ht, rfl⟩ := List.mem_map.1 hx
    exact ⟨_, ((b.fits.down hd).2.1 t ht).2.2.2.2⟩

end Opens

/-- The transfers of a plan as the cluster keeps them. -/
def stamped (c : Cluster) (plan : Plan) : List Transfer :=
  plan.transfers.map (fun t => { t with epoch := c.epoch + 1 })

/-- What the start of a plan makes of the cluster, with `r'` for the rings of the group. -/
structure Opened (c : Cluster) (name : String) (plan : Plan) (coll : Collection) (r' : Router)
    (c' : Cluster) (e : Effects) : Prop where
  accepted : c.apply (.startResharding plan) = .ok (c', e)
  kept : Kept name c c'
  epoch : c'.epoch = c.epoch + 1
  face : c'.face name = ⟨some { coll.setRouter plan.operation.key r' with transfers := c.stamped plan },
    some { plan.operation with stage := .starting },
    (c.replicas.look name).claimed plan.operation plan.transfers⟩
  spawn : e.spawn = ((c.stamped plan).filter (·.status == .running)).map (copyOf name r')

theorem Opens.opened {coll : Collection} {r : Router} (b : Opens c name plan coll r) (hs : c.Sound)
    (hpeer : c.peers.contains plan.operation.peer = true) {r' : Router}
    (hr' : r.start plan.operation.change = .ok r') : ∃ c' e, Opened c name plan coll r' c' e := by
  obtain rfl := b.name_eq
  obtain ⟨table, htable⟩ := b.claim_ok hs
  obtain ⟨hdraw, -⟩ := claimReplicas_redrawn htable
  have hdone := Redone.edit (c.epoch + 1)
    { coll.setRouter plan.operation.key r' with transfers := c.stamped plan } hdraw
    (fun n => get?_insert c.operations _ n { plan.operation with stage := .starting })
  let e : Effects :=
    { spawn := ((c.stamped plan).filter (·.status == .running)).map
        (copyOf plan.operation.collection r')
      started := [{ plan.operation with stage := .starting }] }
  refine ⟨_, e, ?_, ⟨hdone.peers, hdone.ringPositions, hdone.replicas.home, fun n => hdone.face_of_ne⟩, rfl,
    hdone.face, rfl⟩
  refine startResharding_eq_ok.2
    ⟨b.idle, hpeer, coll, r, r', table, b.collection, b.transfers, b.router, hr', htable, ?_, rfl⟩
  rw [if_neg b.transfers_ne]
  rfl

/-- A plan is carried out by the cluster that it is made for. -/
theorem opened_of_plan (h : Reached Planned c) (hp : c.plan name request policy now = .ok plan) :
    ∃ coll r r' c' e, Opens c name plan coll r ∧ plan.Answers c request r ∧
      r.start plan.operation.change = .ok r' ∧ Opened c name plan coll r' c' e := by
  obtain ⟨coll, r, b⟩ := Opens.of_plan h hp
  have ha := plan_answers hp b.cluster_router
  obtain ⟨r', hr'⟩ := b.start_ok ha
  have hpeer : c.peers.contains plan.operation.peer = true := by
    cases hd : plan.operation.direction with
    | up => exact (ha.up hd).1
    | down =>
      have hl : (c.replicas.look name plan.operation.shard plan.operation.peer).isSome := by
        simp [(b.fits.down hd).1]
      exact (h.peopled name).look _ _ hl
  obtain ⟨c', e, hopened⟩ := b.opened h.sound hpeer hr'
  exact ⟨coll, r, r', c', e, b, ha, hr', hopened⟩

end Cluster
end ShardCluster
