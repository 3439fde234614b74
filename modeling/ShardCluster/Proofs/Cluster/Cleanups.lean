import ShardCluster.Proofs.Cluster.Rollback
import ShardCluster.Proofs.Cluster.Progress
import ShardCluster.Proofs.ReplicaTable.Swept
/-! What the entries leave to be cleaned up. A replica that goes is dropped once, whatever makes it go.
An operation that ends leaves each point with the shards that the rings then give it to. -/
namespace ShardCluster
open SortedMap Cleanup

/-- At the given locations some points are deleted, once, and elsewhere none are. -/
def DeletesOnce (l : List Cleanup) (at? : Location → Prop) (gone : PointId → Prop) : Prop :=
  (∀ x, at? x → ∃ s, deletesAt x l = [s] ∧ ∀ id, s.selects id = true ↔ gone id) ∧
    ∀ x, ¬at? x → deletesAt x l = []

theorem deletesOnce_of_delete {xs : List Location} (h : xs.Nodup) {s : Slice} {P : Location → Prop}
    {gone : PointId → Prop} (hx : ∀ x, x ∈ xs ↔ P x) (hs : ∀ id, s.selects id = true ↔ gone id) :
    DeletesOnce (xs.map (.delete · s)) P gone := by
  refine ⟨fun x hp => ⟨s, ?_, hs⟩, fun x hp => ?_⟩
  · rw [deletesAt_delete h, if_pos ((hx x).2 hp)]
  · rw [deletesAt_delete h, if_neg fun hin => hp ((hx x).1 hin)]

namespace Cluster
open ReplicaTable
variable {c c' : Cluster} {name : String} {e : Effects} {entry : Entry} {op : Operation}

theorem cleanup_append (e e' : Effects) : (e ++ e').cleanup = e.cleanup ++ e'.cleanup := rfl

theorem settleReplicas_has {t t' : ReplicaTable} {shards : List ShardId} {rs : List Replica}
    {x : Location} (h : settleReplicas t name shards = .ok (t', rs)) : t'.Has x ↔ t.Has x :=
  (settleReplicas_redrawn h).1.has_same fun _ _ => settled_isSome

theorem rollBack_swept {forced : Bool} {reason : String}
    (h : c.rollBack name forced reason = .ok (c', e)) : Swept c.replicas c'.replicas e.cleanup := by
  cases ho : c.operations.get? name with
  | none =>
    obtain ⟨rfl, rfl⟩ : c = c' ∧ {} = e := by simpa using (rollBack_none ho forced reason).symm.trans h
    exact .of_same fun _ => Iff.rfl
  | some op =>
    obtain ⟨coll, r, table, cleanup, -, -, rfl, rfl, hcase⟩ := rollBack_cases ho h
    have hall : (Effects.cancelling name (coll.take (·.resharding)).2 ++ cleanup ++
        ({ aborted := [⟨op, forced, reason⟩] } : Effects)).cleanup = cleanup.cleanup :=
      List.append_nil _
    rw [hall]
    obtain ⟨-, removed, hremoved, rfl⟩ | ⟨-, restored, hsettle, rfl⟩ := hcase
    · exact removeShard_swept hremoved
    · rw [deleting_cleanup]
      refine Swept.of_deletes (fun x hx => ?_) (fun x => settleReplicas_has hsettle) _
      obtain ⟨hn, y, hy, hq, hp⟩ := mem_locations.1 hx
      rw [has_iff, hn, ← hq, ← hp, (((settleReplicas_redrawn hsettle).2 y).1 hy).1]
      rfl

theorem rollBackAll_swept {reason : String} {names : List String}
    (h : c.rollBackAll reason names = .ok (c', e)) : Swept c.replicas c'.replicas e.cleanup := by
  induction names generalizing c e with
  | nil =>
    obtain ⟨rfl, rfl⟩ : c = c' ∧ {} = e := by simpa [rollBackAll] using h
    exact .of_same fun _ => Iff.rfl
  | cons name rest ih =>
    simp only [rollBackAll, bind_eq_ok, pure_eq_ok, Prod.mk.injEq] at h
    obtain ⟨⟨c₁, first⟩, hfirst, ⟨c₂, more⟩, hmore, rfl, rfl⟩ := h
    exact (rollBack_swept hfirst).trans (ih hmore)

theorem forceAborts_swept {event : TopologyEvent} (h : c.forceAborts event = .ok (c', e)) :
    Swept c.replicas c'.replicas e.cleanup :=
  rollBackAll_swept h

theorem finishResharding_swept (h : c.finishResharding name = .ok (c', e)) :
    Swept c.replicas c'.replicas e.cleanup := by
  obtain ⟨coll, op, r, r', -, -, -, -, -, ⟨-, hd, sources, -, hmem, rfl⟩ |
    ⟨-, hd, removed, hapart, hmem, rfl⟩⟩ := finishResharding_redone h
  · rw [cleanup_append, List.append_nil, deleting_cleanup]
    refine Swept.of_deletes (fun x hx => ?_) (fun x => hd.replicas.has_same fun _ _ => settled_isSome) _
    obtain ⟨hn, y, hy, hq, hp⟩ := mem_locations.1 hx
    rw [has_iff, hn, ← hq, ← hp, ← settled_isSome, ((hmem y).1 hy).2]
    rfl
  · rw [cleanup_append, List.append_nil, dropping_cleanup]
    have hexists : ∀ q p, (∃ y ∈ removed, y.shard = q ∧ y.peer = p) ↔
        q = op.shard ∧ (c.replicas.look name q p).isSome := by
      intro q p
      rw [exists_replica (P := (· = op.shard)) hmem, settled_isSome]
    refine Swept.of_drops (locations_nodup hapart name) (fun x hx => ?_) fun x => ?_
    · obtain ⟨hn, y, hy, hq, hp⟩ := mem_locations.1 hx
      rw [has_iff, hn]
      exact ((hexists _ _).1 ⟨y, hy, hq, hp⟩).2
    · rw [hd.replicas.has, mem_locations, has_iff, hexists]
      by_cases hn : x.collection = name
      · rw [if_pos hn, hn, and_iff_right rfl, Layout.without]
        by_cases hq : x.shard = op.shard
        · simp only [hq, List.mem_singleton, if_true, true_and]
          exact iff_of_false Bool.false_ne_true fun hx => hx.2 hx.1
        · simp [hq, settled_isSome]
      · simp [hn]

theorem discardTransfer_swept {coll : Collection} {key : TransferKey}
    (h : c.discardTransfer name coll key = .ok (c', e)) : Swept c.replicas c'.replicas e.cleanup := by
  obtain ⟨table, old, hremoved, rfl, rfl⟩ := discardTransfer_eq_ok.1 h
  exact remove_swept hremoved

theorem failTransfer_swept {key : TransferKey} {epoch : UInt64} {reason : String}
    (h : c.failTransfer name key epoch reason = .ok (c', e)) :
    Swept c.replicas c'.replicas e.cleanup := by
  obtain ⟨coll, t, e₁, -, -, -, ⟨-, hroll, rfl⟩ | ⟨-, hdiscard, rfl⟩⟩ := failTransfer_eq_ok.1 h
  · have hswept := rollBack_swept hroll
    rwa [cleanup_append, List.append_nil]
  · have hswept := discardTransfer_swept hdiscard
    rwa [cleanup_append, List.append_nil]

theorem abortTransfer_swept {key : TransferKey} (h : c.abortTransfer name key = .ok (c', e)) :
    Swept c.replicas c'.replicas e.cleanup := by
  obtain ⟨coll, t, e₁, -, -, -, hdiscard, rfl⟩ := abortTransfer_eq_ok.1 h
  have hswept := discardTransfer_swept hdiscard
  exact hswept

theorem dropReplica_swept {q : ShardId} {p : PeerId} (h : c.dropReplica name q p = .ok (c', e)) :
    Swept c.replicas c'.replicas e.cleanup := by
  obtain ⟨-, l, table, old, -, -, hremoved, rfl, rfl⟩ := dropReplica_eq_ok.1 h
  exact remove_swept hremoved

theorem deleteCollection_swept (h : c.deleteCollection name = .ok (c', e)) :
    Swept c.replicas c'.replicas e.cleanup := by
  obtain ⟨_, c₁, e₁, -, haborts, rfl, rfl⟩ := deleteCollection_eq_ok.1 h
  have hall := (forceAborts_swept haborts).trans (removeCollection_swept c₁.replicas name)
  simpa [cleanup_append, Effects.cancelling] using hall

theorem deleteShardKey_swept {key : ShardKey} (h : c.deleteShardKey name key = .ok (c', e)) :
    Swept c.replicas c'.replicas e.cleanup := by
  obtain ⟨_, c₁, e₁, coll, table, removed, -, -, -, haborts, -, hremoved, rfl, rfl⟩ :=
    deleteShardKey_eq_ok.1 h
  have hall := (forceAborts_swept haborts).trans (removeShards_swept hremoved)
  simpa [cleanup_append, Effects.cancelling] using hall

/-- Copies that a peer that goes has not finished go with the transfers into them, and then the
replicas that it has. -/
theorem removePeer_swept {peer : PeerId} {force : Bool} (h : c.removePeer peer force = .ok (c', e)) :
    Swept c.replicas c'.replicas e.cleanup := by
  obtain ⟨-, -, c₁, e₁, t₁, t₂, haborts, hstranded, hhosted, rfl, rfl⟩ := removePeer_eq_ok.1 h
  have hcopies := removeReplicas_swept hstranded
  have hrest := removeReplicas_swept hhosted
  have hhere : (t₁.onPeer peer).map (fun x => Cleanup.drop (x.2.location x.1)) =
      ((t₁.onPeer peer).map (fun x => (x.1, x.2.shard, peer))).map
        (fun x => Cleanup.drop ⟨x.1, x.2.2, x.2.1⟩) := by
    rw [List.map_map]
    refine List.map_congr_left fun x hx => ?_
    rw [Function.comp_apply, ← (mem_onPeer.1 hx).1]
    rfl
  rw [List.map_map] at hcopies
  rw [← hhere] at hrest
  exact (forceAborts_swept haborts).trans (hcopies.trans hrest)

theorem createCollection_cleaned {config : CollectionConfig} {placement : Placement}
    (h : c.createCollection name config placement = .ok (c', e)) :
    Cleaned c.replicas c'.replicas e.cleanup := by
  obtain ⟨-, -, -, _, table, -, hplaced, rfl, rfl⟩ := createCollection_eq_ok.1 h
  refine .of_grown fun x hx => insertPlacement_has hplaced ?_
  rwa [has_iff, look_register, ← has_iff]

theorem createShardKey_cleaned {key : ShardKey} {placement : Placement}
    (h : c.createShardKey name key placement = .ok (c', e)) :
    Cleaned c.replicas c'.replicas e.cleanup := by
  obtain ⟨_, table, -, -, -, -, -, -, hplaced, rfl, rfl⟩ := createShardKey_eq_ok.1 h
  exact .of_grown fun x hx => insertPlacement_has hplaced hx

theorem claimReplicas_has {t t' : ReplicaTable} {transfers : List Transfer} {x : Location}
    (h : claimReplicas t op transfers = .ok t') (hx : t.Has x) : t'.Has x := by
  rw [(claimReplicas_redrawn h).1.has]
  split
  · rename_i hn
    rw [has_iff, hn] at hx
    exact Layout.claimed_isSome hx
  · exact hx

theorem startResharding_cleaned {plan : Plan} (h : c.startResharding plan = .ok (c', e)) :
    Cleaned c.replicas c'.replicas e.cleanup := by
  obtain ⟨-, -, _, _, _, table, -, -, -, -, hclaim, rfl, rfl⟩ := startResharding_eq_ok.1 h
  exact .of_grown fun x hx => claimReplicas_has hclaim hx

theorem startTransfer_cleaned {t : Transfer} (h : c.startTransfer name t = .ok (c', e)) :
    Cleaned c.replicas c'.replicas e.cleanup := by
  obtain ⟨coll, table, -, -, -, -, -, -, -, -, -, -, hinsert, rfl, rfl⟩ := startTransfer_eq_ok.1 h
  exact .of_grown fun x hx => insert_has hinsert hx

theorem commit_swept {a : Action} {f : Router → Except Error Router}
    (h : c.commit name a f = .ok (c', e)) :
    Swept c.replicas c'.replicas e.cleanup := by
  obtain ⟨_, _, _, _, _, -, -, -, -, rfl, -, hd⟩ := commit_redone h
  exact .of_same fun x => hd.replicas.has_same fun _ _ => rfl

theorem finishTransfer_swept {key : TransferKey} {epoch : UInt64}
    (h : c.finishTransfer name key epoch = .ok (c', e)) : Swept c.replicas c'.replicas e.cleanup := by
  obtain ⟨coll, t, -, -, -, -, ⟨-, e₁, hslice, rfl⟩ | ⟨-, table, old, hset, rfl, rfl⟩⟩ :=
    finishTransfer_eq_ok.1 h
  · obtain ⟨starts, rfl, -, -, hd⟩ := finishSlice_redone hslice
    exact .of_same fun x => hd.replicas.has_same fun _ _ => rfl
  · exact .of_same fun x => setState_has hset

theorem setReplicaState_swept {q : ShardId} {p : PeerId} {state : ReplicaState}
    (h : c.setReplicaState name q p state = .ok (c', e)) : Swept c.replicas c'.replicas e.cleanup := by
  obtain ⟨-, -, _, table, old, -, -, hset, rfl, rfl⟩ := setReplicaState_eq_ok.1 h
  exact .of_same fun x => setState_has hset

/-- What an entry leaves to be cleaned up is what it takes away. -/
theorem apply_cleaned (h : c.apply entry = .ok (c', e)) : Cleaned c.replicas c'.replicas e.cleanup := by
  cases entry with
  | addPeer peer =>
    obtain ⟨-, rfl, rfl⟩ := addPeer_eq_ok.1 h
    exact .of_grown fun _ => id
  | removePeer peer force => exact (removePeer_swept h).toCleaned
  | createCollection name config placement => exact createCollection_cleaned h
  | deleteCollection name => exact (deleteCollection_swept h).toCleaned
  | createShardKey name key placement => exact createShardKey_cleaned h
  | deleteShardKey name key => exact (deleteShardKey_swept h).toCleaned
  | startResharding plan => exact startResharding_cleaned h
  | commitRead name => exact (commit_swept h).toCleaned
  | commitWrite name => exact (commit_swept h).toCleaned
  | finishResharding name => exact (finishResharding_swept h).toCleaned
  | abortResharding name forced reason =>
    obtain ⟨_, _, -, -, h⟩ := abortResharding_eq_ok.1 h
    exact (rollBack_swept h).toCleaned
  | startTransfer name t => exact startTransfer_cleaned h
  | finishTransfer name key epoch => exact (finishTransfer_swept h).toCleaned
  | failTransfer name key epoch reason => exact (failTransfer_swept h).toCleaned
  | abortTransfer name key => exact (abortTransfer_swept h).toCleaned
  | dropReplica name shard peer => exact (dropReplica_swept h).toCleaned
  | setReplicaState name shard peer state => exact (setReplicaState_swept h).toCleaned

/-- The end of an operation that adds a shard: the old shards give up the points of the new one. -/
theorem finishResharding_deletes (h : c.finishResharding name = .ok (c', e))
    (ho : c.operation? name = some op) (hd : op.direction = .up) :
    ∃ r, c.router name op.key = .ok r ∧ DeletesOnce e.cleanup
      (fun x => x.collection = name ∧ r.old.ring.contains x.shard = true ∧ c.replicas.Has x)
      (fun id => r.routeNew id = some op.shard) := by
  obtain ⟨coll, op', r, r', hface, -, hr, -, -, hcase⟩ := finishResharding_redone h
  have hc : c.collections.get? name = some coll := congrArg Face.collection hface
  obtain rfl : op = op' := Option.some.inj (ho.symm.trans (congrArg Face.operation hface))
  obtain ⟨-, -, sources, hapart, hmem, rfl⟩ | ⟨hdown, -⟩ := hcase
  · refine ⟨r, router_eq_ok.2 ⟨coll, hc, hr⟩, ?_⟩
    rw [cleanup_append, List.append_nil, deleting_cleanup]
    refine deletesOnce_of_delete (locations_nodup hapart name) (fun x => ?_) fun id => ?_
    · rw [mem_locations, exists_replica (P := (r.old.ring.contains · = true)) hmem, settled_isSome,
        has_iff]
      exact and_congr_right fun hn => by rw [hn]
    · rw [Router.targetSlice, Slice.selects, beq_iff_eq]
      rfl
  · rw [hd] at hdown
    cases hdown

/-- Whatever gives an operation up, the rest of it is cleaned up in the same way. -/
theorem undoes_rollBack (hf : (c.face name).Fits) (he : entry.Undoes name)
    (ho : c.operation? name = some op) (h : c.apply entry = .ok (c', e)) :
    ∃ forced reason e₁, c.rollBack name forced reason = .ok (c', e₁) ∧ e.cleanup = e₁.cleanup := by
  have ho : c.operations.get? name = some op := ho
  cases he with
  | aborted forced reason =>
    obtain ⟨_, _, -, -, h⟩ := abortResharding_eq_ok.1 h
    exact ⟨forced, reason, e, h, rfl⟩
  | failed key epoch reason =>
    obtain ⟨coll, t, e₁, hc, hfind, -, ⟨-, hroll, rfl⟩ | ⟨hm, -⟩⟩ := failTransfer_eq_ok.1 h
    · exact ⟨_, _, e₁, hroll, List.append_nil _⟩
    · rw [face, hc, ho] at hf
      obtain ⟨r, hr, -⟩ := hf.live
      rw [(hf.fit coll rfl).slices hr t (Collection.find_eq_ok hfind).1] at hm
      cases hm

/-- An operation that removes a shard is given up: that shard keeps its points, and the replicas that
have been filled with them give them up. -/
theorem undoes_deletes (hf : (c.face name).Fits) (he : entry.Undoes name)
    (ho : c.operation? name = some op) (hd : op.direction = .down) (h : c.apply entry = .ok (c', e)) :
    ∃ r, c.router name op.key = .ok r ∧ DeletesOnce e.cleanup
      (fun x => c.replicas.state x.collection x.shard x.peer = .ok .resharding ∧
        c'.replicas.state x.collection x.shard x.peer = .ok .active)
      (fun id => r.routeOld id = some op.shard) := by
  obtain ⟨forced, reason, e₁, hroll, he₁⟩ := undoes_rollBack hf he ho h
  obtain ⟨coll, r, table, cleanup, hc, hr, rfl, rfl, hcase⟩ := rollBack_cases ho hroll
  obtain ⟨hup, -⟩ | ⟨-, restored, hsettle, rfl⟩ := hcase
  · rw [hd] at hup
    cases hup
  · obtain ⟨hdraw, hmem⟩ := settleReplicas_redrawn hsettle
    rw [face, hc, show c.operations.get? name = some op from ho] at hf
    have hfollows : r.Follows op := hf.agrees.follows hr
    have hall : e.cleanup = (Effects.deleting name (r.slice op.shard) restored).cleanup :=
      he₁.trans (List.append_nil _)
    refine ⟨r, router_eq_ok.2 ⟨coll, hc, hr⟩, ?_⟩
    rw [hall, deleting_cleanup]
    refine deletesOnce_of_delete (locations_nodup (settleReplicas_apart hsettle) name) (fun x => ?_)
      fun id => hfollows.slice_down hd id
    rw [mem_locations, state_eq_ok, state_eq_ok]
    constructor
    · rintro ⟨hn, y, hy, hq, hp⟩
      obtain ⟨hl, hin, -⟩ := (hmem y).1 hy
      rw [hq, hp] at hl
      rw [hq] at hin
      rw [hn, hdraw.look_eq, Layout.settled, if_pos ⟨hl, hin⟩]
      exact ⟨hl, rfl⟩
    · rintro ⟨hl, hactive⟩
      by_cases hn : x.collection = name
      · rw [hn] at hl
        rw [hn, hdraw.look_eq, Layout.settled] at hactive
        split at hactive
        · rename_i hin
          exact ⟨hn, ⟨x.shard, x.peer, .resharding⟩, (hmem _).2 ⟨hl, hin.2, rfl⟩, rfl, rfl⟩
        · cases hl.symm.trans hactive
      · rw [hdraw.look_of_ne hn] at hactive
        cases hl.symm.trans hactive

/-- What an entry leaves to be cleaned up. -/
structure Cleans (c : Cluster) (entry : Entry) (e : Effects) (c' : Cluster) : Prop where
  /-- Just the replicas that go are dropped, and points are deleted only where a replica was. -/
  cleaned : Cleaned c.replicas c'.replicas e.cleanup
  finished : ∀ name op, entry = .finishResharding name → c.operation? name = some op →
    op.direction = .up → ∃ r, c.router name op.key = .ok r ∧ DeletesOnce e.cleanup
      (fun x => x.collection = name ∧ r.old.ring.contains x.shard = true ∧ c.replicas.Has x)
      (fun id => r.routeNew id = some op.shard)
  undone : ∀ name op, entry.Undoes name → c.operation? name = some op →
    op.direction = .down → ∃ r, c.router name op.key = .ok r ∧ DeletesOnce e.cleanup
      (fun x => c.replicas.state x.collection x.shard x.peer = .ok .resharding ∧
        c'.replicas.state x.collection x.shard x.peer = .ok .active)
      (fun id => r.routeOld id = some op.shard)

theorem cleans_of_reached (h : Reached Planned c) (hx : c.apply entry = .ok (c', e)) :
    Cleans c entry e c' where
  cleaned := apply_cleaned hx
  finished name op he ho hd := by
    subst he
    exact finishResharding_deletes hx ho hd
  undone name op he ho hd := undoes_deletes (h.fits name) he ho hd hx

/-- A peer has the one shard of a collection, of which another one makes a copy, and is to leave the
other collection. -/
def departing : Except Error Cluster := do
  let c ← replay 1 1 [.addPeer 1, .addPeer 2, .addPeer 3,
    .createCollection "points" {} (.ofList [(0, [2])]),
    .createCollection "lines" {} (.ofList [(0, [1]), (1, [2])]),
    .startTransfer "points" { key := ⟨0, 0, 2, 3⟩, method := .wholeShard }]
  let plan ← c.plan "lines" { direction := .down, shard := some 1 } .last .epoch
  c.applyAll [.startResharding plan]

/-- With the peer the copy goes and the replicas that it has. Where the shard stays on it instead, the
points that were copied go. -/
theorem cleans_departing : ∃ c, departing = .ok c ∧
    (∃ c' e, c.apply (.removePeer 2 true) = .ok (c', e) ∧
      drops e.cleanup = [⟨"points", 3, 0⟩, ⟨"lines", 2, 1⟩, ⟨"points", 2, 0⟩] ∧
      ∀ x ∈ drops e.cleanup, c.replicas.Has x ∧ ¬c'.replicas.Has x) ∧
    ∃ c' e s, c.apply (.abortResharding "lines" false "") = .ok (c', e) ∧
      deletesAt ⟨"lines", 1, 0⟩ e.cleanup = [s] ∧
      s.selects (.num 1) = true ∧ s.selects (.num 0) = false := by
  have hlive : departing.toOption.map (fun c =>
      ((c.operation? "lines").map (fun op => (op.direction, op.shard, op.key)),
        (c.router "lines" none).toOption.map (fun r => (r.routeOld (.num 1), r.routeOld (.num 0))))) =
      some (some (.down, 1, none), some (some 1, some 0)) := by
    decide +kernel
  have hends : departing.toOption.map (fun c => (
      (c.apply (.removePeer 2 true)).toOption.map (fun x => drops x.2.cleanup),
      (c.replicas.state "lines" 0 1).toOption,
      (c.apply (.abortResharding "lines" false "")).toOption.map
        (fun x => (x.1.replicas.state "lines" 0 1).toOption))) =
      some (some [⟨"points", 3, 0⟩, ⟨"lines", 2, 1⟩, ⟨"points", 2, 0⟩],
        some .resharding, some (some .active)) := by
    decide +kernel
  obtain ⟨c, h, hlive⟩ := toOption_map_eq_some.1 hlive
  rw [toOption_eq_some.2 h, Option.map_some, Option.some.injEq] at hends
  simp only [Prod.mk.injEq] at hlive hends
  obtain ⟨hop, hroutes⟩ := hlive
  obtain ⟨hdrops, hbefore, hafter⟩ := hends
  obtain ⟨op, ho, hparts⟩ := Option.map_eq_some_iff.1 hop
  simp only [Prod.mk.injEq] at hparts
  obtain ⟨hd, hshard, hkey⟩ := hparts
  obtain ⟨r, hr, hroute⟩ := toOption_map_eq_some.1 hroutes
  obtain ⟨hone, hzero⟩ := Prod.mk.inj hroute
  obtain ⟨⟨c₁, e₁⟩, h₁, hdrops⟩ := toOption_map_eq_some.1 hdrops
  obtain ⟨⟨c₂, e₂⟩, h₂, hafter⟩ := toOption_map_eq_some.1 hafter
  have hsteps := h
  simp only [departing, bind_eq_ok] at hsteps
  obtain ⟨c₀, hfound, plan, hplan, hstarted⟩ := hsteps
  have hnew : Reached Planned (.new 1 1) := .new 1 1
  have hplain : Reached Planned c₀ := hnew.applyAll (by simp [Planned]) hfound
  have hreached : Reached Planned c := hplain.applyPlan hplan (by simp) hstarted
  have hcleaned := (cleans_of_reached hreached h₁).cleaned
  have hbefore := toOption_eq_some.1 hbefore
  have hafter := toOption_eq_some.1 hafter
  obtain ⟨r', hr', hdeletes, -⟩ :=
    (cleans_of_reached hreached h₂).undone "lines" op (.aborted false "") ho hd
  obtain rfl : r = r' := Except.ok.inj (hr.symm.trans (hkey ▸ hr'))
  obtain ⟨s, hs, hselects⟩ := hdeletes ⟨"lines", 1, 0⟩ ⟨hbefore, hafter⟩
  rw [hshard] at hselects
  refine ⟨c, h, ⟨c₁, e₁, h₁, hdrops, fun x => (hcleaned.mem_drops x).1⟩, c₂, e₂, s, h₂, hs,
    (hselects _).2 hone, Bool.eq_false_iff.2 fun hx => ?_⟩
  cases hzero.symm.trans ((hselects _).1 hx)

end Cluster
end ShardCluster
