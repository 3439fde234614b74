import ShardCluster.Cluster.Planning
import ShardCluster.Proofs.Cluster.Accepted
import ShardCluster.Proofs.Transfer.Table
/-! What a plan promises. Its transfers fill the replicas of the operation, from active ones, and no
two of them run into one replica. -/
namespace ShardCluster

/-- A plan for a group, over the replicas of a collection. -/
structure Plan.Fits (plan : Plan) (coll : Collection) (l : Layout) (r : Router) : Prop where
  slices : ∀ t ∈ plan.transfers, t.resharding = true
  keys : (plan.transfers.map (·.key)).Nodup
  paced : Transfer.Paced plan.transfers
  up : plan.operation.direction = .up →
    coll.shardSet.contains plan.operation.shard = false ∧
    (∀ t ∈ plan.transfers, t.key.destination = (plan.operation.shard, plan.operation.peer) ∧
      t.key.shard ∈ r.shards ∧ l t.key.shard t.key.source = some .active) ∧
    ∀ q ∈ r.shards, ∃ t ∈ plan.transfers, t.key.shard = q
  down : plan.operation.direction = .down →
    l plan.operation.shard plan.operation.peer = some .active ∧
    (∀ t ∈ plan.transfers, t.key.shard = plan.operation.shard ∧ t.key.source = plan.operation.peer ∧
      t.key.toShard ∈ r.shards ∧ t.key.toShard ≠ plan.operation.shard ∧
      l t.key.toShard t.key.target = some .active) ∧
    (∀ q ∈ r.shards, q ≠ plan.operation.shard → ∃ p, l q p = some .active) ∧
    (∀ q ∈ r.shards, q ≠ plan.operation.shard → ∀ p, l q p = some .active →
      ∃ t ∈ plan.transfers, t.key.destination = (q, p)) ∧
    ∃ q ∈ r.shards, q ≠ plan.operation.shard

namespace Cluster
open SortedMap ReplicaTable
variable {c : Cluster} {name : String} {coll : Collection}

theorem foldl_lighter_mem (x : Nat × PeerId) (l : List (Nat × PeerId)) :
    l.foldl Replica.lighter x ∈ x :: l := by
  induction l generalizing x with
  | nil => simp
  | cons y rest ih =>
    have hpick : Replica.lighter x y = x ∨ Replica.lighter x y = y := by
      unfold Replica.lighter
      split
      · exact .inr rfl
      · exact .inl rfl
    have hm := ih (Replica.lighter x y)
    rw [List.foldl_cons]
    obtain hp | hp := hpick
    · rw [hp] at hm ⊢
      obtain hm | hm := List.mem_cons.1 hm
      · rw [hm]
        simp
      · exact List.mem_cons_of_mem _ (List.mem_cons_of_mem _ hm)
    · rw [hp] at hm ⊢
      exact List.mem_cons_of_mem _ hm

/-- The replica to copy from is active. -/
theorem sourceOf_ok {q : ShardId} {replicas : List Replica} {planned : List TransferKey} {p : PeerId}
    (h : sourceOf q replicas planned = .ok p) : ∃ r ∈ replicas, r.state = .active ∧ r.peer = p := by
  unfold sourceOf Replica.suggestSource at h
  cases hc : (replicas.filter (·.state == .active)).map (fun r => (Replica.outgoing planned r.peer, r.peer)) with
  | nil => simp [hc] at h
  | cons x rest =>
    simp only [hc, Except.ok.injEq] at h
    have hm := foldl_lighter_mem x rest
    rw [← hc, List.mem_map] at hm
    obtain ⟨r, hr, he⟩ := hm
    obtain ⟨hr, hs⟩ := List.mem_filter.1 hr
    exact ⟨r, hr, by simpa using hs, by rw [← h, ← he]⟩

/-- One copy out of each shard of the group, from an active replica. -/
theorem gather_ok {shard : ShardId} {peer : PeerId} {planned keys : List TransferKey}
    {group : List ShardId} (h : c.gather name shard peer planned group = .ok keys) :
    ∃ more, keys = planned ++ more ∧ more.map (·.shard) = group ∧ ∀ k ∈ more,
      k.destination = (shard, peer) ∧ c.replicas.look name k.shard k.source = some .active := by
  induction group generalizing planned with
  | nil =>
    obtain rfl : planned = keys := by simpa [gather] using h
    exact ⟨[], by simp⟩
  | cons q rest ih =>
    simp only [gather, bind_eq_ok] at h
    obtain ⟨replicas, hreplicas, origin, horigin, h⟩ := h
    obtain ⟨more, rfl, hmap, hmore⟩ := ih h
    obtain ⟨r, hr, hstate, rfl⟩ := sourceOf_ok horigin
    obtain ⟨rfl, hlook⟩ := (shardReplicas_ok hreplicas).1 hr
    refine ⟨⟨r.shard, shard, r.peer, peer⟩ :: more, by simp, by simp [hmap], fun k hk => ?_⟩
    obtain rfl | hk := List.mem_cons.1 hk
    · exact ⟨rfl, hstate ▸ hlook⟩
    · exact hmore k hk

/-- One copy into each active replica of the other shards, each of which has one. -/
theorem scatter_ok {shard : ShardId} {peer : PeerId} {keys : List TransferKey} {group : List ShardId}
    (hg : group.Nodup) (h : c.scatter name shard peer group = .ok keys) :
    (∀ q ∈ group, ∃ p, c.replicas.look name q p = some .active) ∧ keys.Nodup ∧
      ∀ k, k ∈ keys ↔ k.shard = shard ∧ k.source = peer ∧ k.toShard ∈ group ∧
        c.replicas.look name k.toShard k.target = some .active := by
  induction group generalizing keys with
  | nil =>
    obtain rfl : [] = keys := by simpa [scatter] using h
    simp
  | cons q rest ih =>
    simp only [scatter, bind_eq_ok, throw_eq_ok, ite_eq_ok, false_and, exists_false, and_false,
      false_or, pure_eq_ok] at h
    obtain ⟨replicas, hreplicas, hne, more, hmore, rfl⟩ := h
    obtain ⟨hq, hrest⟩ := List.nodup_cons.1 hg
    obtain ⟨hactive, hnodup, hmem⟩ := ih hrest hmore
    have hhere : ∀ k, k ∈ (replicas.filter (·.state == .active)).map
        (fun r => (⟨shard, q, peer, r.peer⟩ : TransferKey)) ↔ k.shard = shard ∧ k.source = peer ∧
          k.toShard = q ∧ c.replicas.look name q k.target = some .active := by
      intro k
      simp only [List.mem_map, List.mem_filter, shardReplicas_ok hreplicas, beq_iff_eq]
      constructor
      · intro hk
        obtain ⟨r, ⟨⟨-, hl⟩, hs⟩, rfl⟩ := hk
        exact ⟨rfl, rfl, rfl, hs ▸ hl⟩
      · intro hk
        obtain ⟨rfl, rfl, rfl, hl⟩ := hk
        exact ⟨⟨k.toShard, k.target, .active⟩, ⟨⟨rfl, hl⟩, rfl⟩, rfl⟩
    refine ⟨fun q' hq' => ?_, ?_, fun k => ?_⟩
    · obtain rfl | hq' := List.mem_cons.1 hq'
      · obtain ⟨r, hr⟩ := List.exists_mem_of_ne_nil (replicas.filter (·.state == .active))
          (by simpa using hne)
        obtain ⟨hr, hs⟩ := List.mem_filter.1 hr
        exact ⟨r.peer, (beq_iff_eq.1 hs) ▸ ((shardReplicas_ok hreplicas).1 hr).2⟩
      · exact hactive q' hq'
    · refine List.nodup_append.2 ⟨?_, hnodup, fun a ha b hb hab => ?_⟩
      · have hpeers : ((replicas.filter (·.state == .active)).map (·.peer)).Nodup :=
          (shardReplicas_nodup hreplicas).sublist (List.filter_sublist.map _)
        rw [List.nodup_iff_pairwise_ne, List.pairwise_map] at hpeers ⊢
        exact hpeers.imp fun hne he => hne (congrArg TransferKey.target he)
      · subst hab
        exact hq (((hhere a).1 ha).2.2.1 ▸ ((hmem a).1 hb).2.2.1)
    · rw [List.mem_append, hhere, hmem, List.mem_cons]
      constructor
      · intro hk
        obtain ⟨h₁, h₂, h₃, h₄⟩ | ⟨h₁, h₂, h₃, h₄⟩ := hk
        · exact ⟨h₁, h₂, .inl h₃, h₃ ▸ h₄⟩
        · exact ⟨h₁, h₂, .inr h₃, h₄⟩
      · intro hk
        obtain ⟨h₁, h₂, h₃ | h₃, h₄⟩ := hk
        · exact .inl ⟨h₁, h₂, h₃, h₃ ▸ h₄⟩
        · exact .inr ⟨h₁, h₂, h₃, h₄⟩

/-- The next transfer of a schedule. -/
def enlist (done : List Transfer) (key : TransferKey) : List Transfer :=
  let busy := done.any (fun t => t.key.destination == key.destination)
  done ++ [{ key, method := .slice, status := if busy then .pending else .running }]

theorem enlist_paced {done : List Transfer} (h : Transfer.Paced done) (key : TransferKey) :
    Transfer.Paced (enlist done key) := by
  refine List.pairwise_append.2 ⟨h, by simp, fun a ha b hb _ hrun hd => ?_⟩
  obtain rfl := List.mem_singleton.1 hb
  have hbusy : done.any (fun t => t.key.destination == key.destination) = true :=
    List.any_eq_true.2 ⟨a, ha, by simpa using hd⟩
  simp [hbusy] at hrun

theorem foldl_enlist {keys : List TransferKey} {done : List Transfer}
    (hs : ∀ t ∈ done, t.resharding = true) (hp : Transfer.Paced done) :
    (keys.foldl enlist done).map (·.key) = done.map (·.key) ++ keys ∧
      (∀ t ∈ keys.foldl enlist done, t.resharding = true) ∧ Transfer.Paced (keys.foldl enlist done) := by
  induction keys generalizing done with
  | nil => exact ⟨by simp, hs, hp⟩
  | cons key rest ih =>
    have hs' : ∀ t ∈ enlist done key, t.resharding = true := by
      intro t ht
      obtain ht | ht := List.mem_append.1 ht
      · exact hs t ht
      · rw [List.mem_singleton.1 ht]
        rfl
    obtain ⟨hkeys, hrest⟩ := ih hs' (enlist_paced hp key)
    refine ⟨?_, hrest⟩
    rw [List.foldl_cons, hkeys]
    simp [enlist]

/-- Transfers keep the order of their keys, and each runs once the earlier ones into its replica
are gone. -/
theorem schedule_spec (keys : List TransferKey) : (schedule keys).map (·.key) = keys ∧
    (∀ t ∈ schedule keys, t.resharding = true) ∧ Transfer.Paced (schedule keys) := by
  have hdef : schedule keys = keys.foldl enlist [] := rfl
  have hnil : Transfer.Paced [] := .nil
  rw [hdef]
  simpa using foldl_enlist (by simp) hnil

theorem nextShard_fresh {shard : ShardId} (h : coll.nextShard = .ok shard) :
    coll.shardSet.contains shard = false := by
  unfold Collection.nextShard at h
  cases hl : coll.shardSet.last? with
  | none =>
    have hnil : coll.shardSet.entries = [] := by simpa [SortedMap.last?] using hl
    simp [SortedMap.contains, SortedMap.get?, hnil, SortedMap.find]
  | some e =>
    obtain ⟨last, u⟩ := e
    simp only [hl, ite_eq_ok, Except.ok.injEq, error_eq_ok, and_false, or_false] at h
    obtain ⟨hsize, rfl⟩ := h
    cases hc : coll.shardSet.contains (last + 1) with
    | false => rfl
    | true =>
      obtain ⟨v, hv⟩ := contains_iff.1 hc
      have hle := last?_ge hl (mem_entries.2 hv)
      have hnat : (last + 1).toNat = last.toNat + 1 := by
        rw [UInt32.toNat_add]
        exact Nat.mod_eq_of_lt hsize
      have hlt : last < last + 1 := UInt32.lt_iff_toNat_lt.2 (by omega)
      rw [Std.compare_eq_gt.2 hlt] at hle
      cases hle

theorem leastLoaded_known {p : PeerId} (h : c.leastLoaded name = some p) :
    c.peers.contains p = true := by
  unfold leastLoaded at h
  cases hl : c.peers.toList.map (fun p => (c.replicas.countOn name p, p)) with
  | nil => simp [hl] at h
  | cons x rest =>
    simp only [hl, Option.some.injEq] at h
    have hm := foldl_lighter_mem x rest
    rw [← hl, List.mem_map] at hm
    obtain ⟨p', hp', he⟩ := hm
    obtain rfl : p' = p := by rw [← h, ← he]
    exact SortedSet.mem_toList.1 hp'

/-- Whether or not the request names the peer of the new shard, the plan goes on with one. -/
theorem newPeer_ok {named : Option PeerId} {α : Type} {k : PeerId → Except Error α} {x : α}
    (h : (do
      let p ← match named with
        | some p => do c.requirePeer p; pure p
        | none => match c.leastLoaded name with
          | some p => pure p
          | none => throw (.badRequest .noPeers)
      k p : Except Error α) = .ok x) : ∃ p, c.peers.contains p = true ∧ k p = .ok x := by
  cases named with
  | some p =>
    obtain ⟨_, hpeer, h⟩ := bind_eq_ok.1 h
    exact ⟨p, requirePeer_eq_ok.1 hpeer, h⟩
  | none =>
    cases hl : c.leastLoaded name with
    | none => simp [hl, throw_eq_ok, bind_eq_ok] at h
    | some p => exact ⟨p, leastLoaded_known hl, by simpa [hl] using h⟩

theorem planUp_ok {group : List ShardId} {request : ReshardingRequest} {shard : ShardId} {peer : PeerId}
    {keys : List TransferKey} (h : c.planUp name coll group request = .ok (shard, peer, keys)) :
    coll.shardSet.contains shard = false ∧ c.gather name shard peer [] group = .ok keys ∧
      c.peers.contains peer = true ∧ ∀ s, request.shard = some s → s = shard := by
  have hend : ∀ {s : ShardId} {p : PeerId}, (do return (s, p, ← c.gather name s p [] group)) =
      Except.ok (shard, peer, keys) → coll.shardSet.contains s = false → c.peers.contains p = true →
        s = shard ∧ coll.shardSet.contains shard = false ∧
          c.gather name shard peer [] group = .ok keys ∧ c.peers.contains peer = true := by
    intro s p h hs hp
    simp only [bind_eq_ok, pure_eq_ok, Prod.mk.injEq] at h
    obtain ⟨_, hg, rfl, rfl, rfl⟩ := h
    exact ⟨rfl, hs, hg, hp⟩
  -- the shard is new, whoever names it
  unfold planUp at h
  cases hs : request.shard with
  | none =>
    simp only [hs, bind_eq_ok] at h
    obtain ⟨s, hnext, h⟩ := h
    obtain ⟨p, hpeer, h⟩ := newPeer_ok h
    obtain ⟨-, hfresh, hgather, hknown⟩ := hend h (nextShard_fresh hnext) hpeer
    exact ⟨hfresh, hgather, hknown, nofun⟩
  | some s =>
    simp only [hs, ite_eq_ok, throw_eq_ok, bind_eq_ok, false_and, exists_false, and_false, false_or,
      pure_bind] at h
    obtain ⟨hfresh, h⟩ := h
    obtain ⟨p, hpeer, h⟩ := newPeer_ok h
    obtain ⟨rfl, hfresh, hgather, hknown⟩ := hend h (by simpa using hfresh) hpeer
    exact ⟨hfresh, hgather, hknown, fun s' he => (Option.some.inj he).symm⟩

/-- Whether or not the request names the peer that loses its replica, that replica is active. -/
theorem leavingPeer_ok {s : ShardId} {named : Option PeerId} {α : Type} {k : PeerId → Except Error α}
    {x : α} (h : (do
      let replicas ← c.replicas.shardReplicas name s
      let p ← match named with
        | some p => do
          c.requirePeer p
          let state ← c.replicas.state name s p
          if state != .active then throw (.badRequest (.notActive s p state))
          pure p
        | none => sourceOf s replicas []
      k p : Except Error α) = .ok x) : ∃ p, c.replicas.look name s p = some .active ∧ k p = .ok x := by
  obtain ⟨replicas, hreplicas, h⟩ := bind_eq_ok.1 h
  cases named with
  | some p =>
    simp only [bind_eq_ok, ite_eq_ok, throw_eq_ok, state_eq_ok, false_and, exists_false, and_false,
      false_or, pure_bind] at h
    obtain ⟨_, -, state, hl, hstate, h⟩ := h
    obtain rfl : state = .active := by simpa using hstate
    exact ⟨p, hl, h⟩
  | none =>
    obtain ⟨p, hsource, h⟩ := bind_eq_ok.1 h
    obtain ⟨y, hy, hstate, rfl⟩ := sourceOf_ok hsource
    exact ⟨y.peer, hstate ▸ ((shardReplicas_ok hreplicas).1 hy).2, h⟩

theorem choose_mem {policy : RemovalPolicy} {group : List ShardId} {shard : ShardId}
    (h : choose policy group = .ok shard) : shard ∈ group := by
  cases policy with
  | last =>
    cases hlast : group.getLast? with
    | none => simp [choose, hlast] at h
    | some s =>
      obtain rfl : s = shard := by simpa [choose, hlast] using h
      exact List.mem_of_getLast? hlast
  | first =>
    cases hfirst : group.head? with
    | none => simp [choose, hfirst] at h
    | some s =>
      obtain rfl : s = shard := by simpa [choose, hfirst] using h
      exact List.mem_of_head? hfirst

theorem planDown_ok {group : List ShardId} {request : ReshardingRequest} {policy : RemovalPolicy}
    {shard : ShardId} {peer : PeerId} {keys : List TransferKey}
    (h : c.planDown name group request policy = .ok (shard, peer, keys)) :
    1 < group.length ∧ c.replicas.look name shard peer = some .active ∧
      c.scatter name shard peer (group.filter (· != shard)) = .ok keys ∧ shard ∈ group ∧
      ∀ s, request.shard = some s → s = shard := by
  have hend : ∀ {s : ShardId} {p : PeerId},
      (do return (s, p, ← c.scatter name s p (group.filter (· != s)))) =
        Except.ok (shard, peer, keys) → c.replicas.look name s p = some .active →
        s = shard ∧ c.replicas.look name shard peer = some .active ∧
          c.scatter name shard peer (group.filter (· != shard)) = .ok keys := by
    intro s p h hl
    simp only [bind_eq_ok, pure_eq_ok, Prod.mk.injEq] at h
    obtain ⟨_, hg, rfl, rfl, rfl⟩ := h
    exact ⟨rfl, hl, hg⟩
  simp only [planDown, ite_eq_ok, throw_eq_ok, bind_eq_ok, false_and, exists_false, and_false,
    false_or] at h
  obtain ⟨hlen, h⟩ := h
  refine ⟨by omega, ?_⟩
  cases hs : request.shard with
  | none =>
    simp only [hs, bind_eq_ok] at h
    obtain ⟨s, hchosen, h⟩ := h
    obtain ⟨p, hl, h⟩ := leavingPeer_ok (bind_eq_ok.2 h)
    obtain ⟨rfl, hactive, hscatter⟩ := hend h hl
    exact ⟨hactive, hscatter, choose_mem hchosen, nofun⟩
  | some s =>
    simp only [hs, ite_eq_ok, throw_eq_ok, bind_eq_ok, false_and, exists_false, and_false, or_false,
      pure_bind] at h
    obtain ⟨p, hl, hplan⟩ := leavingPeer_ok (bind_eq_ok.2 h.2)
    obtain ⟨rfl, hactive, hscatter⟩ := hend hplan hl
    exact ⟨hactive, hscatter, by simpa using h.1, fun s' he => (Option.some.inj he).symm⟩

theorem mem_schedule {keys : List TransferKey} {k : TransferKey} :
    k ∈ keys ↔ ∃ t ∈ schedule keys, t.key = k := by
  rw [← List.mem_map, (schedule_spec keys).1]

section
variable {r : Router} {request : ReshardingRequest} {policy : RemovalPolicy} {plan : Plan}
  {keys : List TransferKey}

/-- The shard that comes gathers from an active replica of every shard of the group. -/
theorem planUp_fits (hd : plan.operation.direction = .up) (ht : plan.transfers = schedule keys)
    (h : c.planUp name coll r.shards request =
      .ok (plan.operation.shard, plan.operation.peer, keys)) :
    plan.Fits coll (c.replicas.look name) r := by
  obtain ⟨hkeys, hslices, hpaced⟩ := schedule_spec keys
  obtain ⟨hfresh, hgather, -⟩ := planUp_ok h
  obtain ⟨_, rfl, hmap, hmore⟩ := gather_ok hgather
  rw [← ht] at hkeys hslices hpaced
  refine ⟨hslices, ?_, hpaced, fun _ => ⟨hfresh, fun t hx => ?_, fun q hq => ?_⟩, fun hdown => ?_⟩
  · have hgroup : r.shards.Nodup := keys_nodup _
    rw [← hmap, List.nodup_iff_pairwise_ne, List.pairwise_map] at hgroup
    rw [hkeys]
    exact hgroup.imp fun hne he => hne (congrArg TransferKey.shard he)
  · have hk : t.key ∈ keys := mem_schedule.2 ⟨t, ht ▸ hx, rfl⟩
    obtain ⟨hdest, hlook⟩ := hmore _ hk
    exact ⟨hdest, hmap ▸ List.mem_map_of_mem hk, hlook⟩
  · rw [← hmap] at hq
    obtain ⟨k, hk, rfl⟩ := List.mem_map.1 hq
    obtain ⟨t, hx, rfl⟩ := mem_schedule.1 hk
    exact ⟨t, ht ▸ hx, rfl⟩
  · cases hd.symm.trans hdown

/-- The shard that goes scatters to every active replica of the other shards of the group. -/
theorem planDown_fits (hd : plan.operation.direction = .down) (ht : plan.transfers = schedule keys)
    (h : c.planDown name r.shards request policy =
      .ok (plan.operation.shard, plan.operation.peer, keys)) :
    plan.Fits coll (c.replicas.look name) r := by
  have hgroup : r.shards.Nodup := keys_nodup _
  obtain ⟨hkeys, hslices, hpaced⟩ := schedule_spec keys
  obtain ⟨hlen, hpeer, hscatter, -⟩ := planDown_ok h
  obtain ⟨hactive, hnodup, hmem⟩ := scatter_ok (hgroup.sublist List.filter_sublist) hscatter
  have hrest : ∀ q, q ∈ r.shards.filter (· != plan.operation.shard) ↔
      q ∈ r.shards ∧ q ≠ plan.operation.shard := by simp [List.mem_filter]
  rw [← ht] at hkeys hslices hpaced
  refine ⟨hslices, hkeys ▸ hnodup, hpaced, fun hup => ?_, fun _ => ⟨hpeer, fun t hx => ?_,
    fun q hq hne => ?_, fun q hq hne p hp => ?_, ?_⟩⟩
  · cases hd.symm.trans hup
  · obtain ⟨hshard, hsource, hto, hlook⟩ := (hmem t.key).1 (mem_schedule.2 ⟨t, ht ▸ hx, rfl⟩)
    exact ⟨hshard, hsource, ((hrest _).1 hto).1, ((hrest _).1 hto).2, hlook⟩
  · exact hactive q ((hrest q).2 ⟨hq, hne⟩)
  · have hk : ⟨plan.operation.shard, q, plan.operation.peer, p⟩ ∈ keys :=
      (hmem _).2 ⟨rfl, rfl, (hrest q).2 ⟨hq, hne⟩, hp⟩
    obtain ⟨t, hx, hkey⟩ := mem_schedule.1 hk
    exact ⟨t, ht ▸ hx, by rw [hkey]; rfl⟩
  · -- the group has a second shard
    match hg : r.shards, hgroup, hlen with
    | x :: y :: rest, hgroup, _ =>
      by_cases hx : x = plan.operation.shard
      · refine ⟨y, by simp, fun hy => ?_⟩
        simp [hx, hy] at hgroup
      · exact ⟨x, by simp, hx⟩

theorem plan_fits {now : Timestamp} (h : c.plan name request policy now = .ok plan) :
    plan.operation.collection = name ∧ c.operations.get? name = none ∧
      ∃ coll r, c.collections.get? name = some coll ∧ coll.transfers = [] ∧
        coll.router plan.operation.key = .ok r ∧ plan.Fits coll (c.replicas.look name) r := by
  simp only [Cluster.plan, bind_eq_ok, collection_eq_ok, requireIdle_eq_ok,
    requireNoTransfer_eq_ok] at h
  obtain ⟨coll, hc, -, hidle, -, ht, r, hr, h⟩ := h
  cases hd : request.direction with
  | up =>
    simp only [hd, bind_eq_ok, pure_eq_ok] at h
    obtain ⟨⟨shard, peer, keys⟩, hup, rfl⟩ := h
    exact ⟨rfl, hidle, coll, r, hc, ht, hr, planUp_fits rfl rfl hup⟩
  | down =>
    simp only [hd, bind_eq_ok, pure_eq_ok] at h
    obtain ⟨⟨shard, peer, keys⟩, hdown, rfl⟩ := h
    exact ⟨rfl, hidle, coll, r, hc, ht, hr, planDown_fits rfl rfl hdown⟩

end

end Cluster
end ShardCluster
