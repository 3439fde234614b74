import ShardCluster.Proofs.Cluster.Accepted
/-! What the entries of a resharding operation do to its collection. -/
namespace ShardCluster.Cluster
open SortedMap ReplicaTable
variable {c c' : Cluster} {name : String} {e : Effects}

/-- Both commits move the stage on and let the router take up its new ring. -/
theorem commit_redone {a : Action} {f : Router → Except Error Router}
    (h : c.commit name a f = .ok (c', e)) :
    ∃ coll op next r r', c.face name = ⟨some coll, some op, c.replicas.look name⟩ ∧
      Stage.next true (some op.stage) a = .ok next ∧ coll.router op.key = .ok r ∧ f r = .ok r' ∧
      e = {} ∧ c'.epoch = c.epoch ∧ Redone c c' name (coll.setRouter op.key r')
        (some { op with stage := next.getD op.stage }) (c.replicas.look name) := by
  obtain ⟨coll, op, next, r, r', hc, ho, hn, hr, hr', rfl, rfl⟩ := commit_eq_ok.1 h
  refine ⟨coll, op, next, r, r', by rw [face, hc, ho], hn, hr, hr', rfl, rfl, ?_⟩
  exact Redone.edit c.epoch (coll.setRouter op.key r') (Redrawn.refl c.replicas name)
    fun n => get?_insert c.operations name n _

theorem named_of_face (hs : c.Sound) {coll : Option Collection} {op : Operation} {l : Layout}
    (hf : c.face name = ⟨coll, some op, l⟩) : op.collection = name :=
  (hs.named name op (congrArg Face.operation hf)).1

theorem commitRead_touched (hs : c.Sound) (h : c.commitRead name = .ok (c', e)) :
    Touched (Change name (c.epoch + 1) (.commitRead name)) 0 name c e c' := by
  obtain ⟨coll, op, next, r, r', hf, hn, hr, hr', rfl, he, hd⟩ := commit_redone h
  obtain ⟨hstage, rfl⟩ : op.stage = .awaitingReadCommit ∧ next = some .awaitingWriteCommit := by
    cases hst : op.stage <;> simp_all [Stage.next]
  refine hd.touched (fun o h => ?_) (by simp [he]) (fun n _ => Effects.wake_still n rfl rfl rfl rfl) ?_
  · have hop := named_of_face hs hf
    obtain rfl := Option.some.inj h
    exact hop
  · rw [Effects.wake_still name rfl rfl rfl rfl, hf]
    exact .readCommitted hstage hr hr'

theorem commitWrite_touched (hs : c.Sound) (h : c.commitWrite name = .ok (c', e)) :
    Touched (Change name (c.epoch + 1) (.commitWrite name)) 0 name c e c' := by
  obtain ⟨coll, op, next, r, r', hf, hn, hr, hr', rfl, he, hd⟩ := commit_redone h
  obtain ⟨hstage, rfl⟩ : op.stage = .awaitingWriteCommit ∧ next = some .awaitingFinish := by
    cases hst : op.stage <;> simp_all [Stage.next]
  refine hd.touched (fun o h => ?_) (by simp [he]) (fun n _ => Effects.wake_still n rfl rfl rfl rfl) ?_
  · have hop := named_of_face hs hf
    obtain rfl := Option.some.inj h
    exact hop
  · rw [Effects.wake_still name rfl rfl rfl rfl, hf]
    exact .writeCommitted hstage hr hr'

theorem settled_isSome {l : Layout} {shards : List ShardId} {q : ShardId} {p : PeerId} :
    (l.settled shards q p).isSome = (l q p).isSome := by
  by_cases h : l q p = some .resharding ∧ q ∈ shards
  · simp [Layout.settled, h]
  · simp [Layout.settled, h]

theorem settled_eq_none {l : Layout} {shards : List ShardId} {q : ShardId} {p : PeerId} :
    l.settled shards q p = none ↔ l q p = none := by
  rw [← Option.not_isSome_iff_eq_none, ← Option.not_isSome_iff_eq_none, settled_isSome]

/-- The end of an operation settles the replicas of its group; then the sources lose what they gave
away, or the shard that goes is forgotten. -/
theorem finishResharding_redone (h : c.finishResharding name = .ok (c', e)) :
    ∃ coll op r r', c.face name = ⟨some coll, some op, c.replicas.look name⟩ ∧
      op.stage = .awaitingFinish ∧ coll.router op.key = .ok r ∧ r.finish = .ok r' ∧
      c'.epoch = c.epoch ∧
      ((op.direction = .up ∧ Redone c c' name (coll.setRouter op.key r') none
          ((c.replicas.look name).settled r.shards) ∧
        ∃ sources, sources.Pairwise (fun a b => ¬(a.shard = b.shard ∧ a.peer = b.peer)) ∧
          (∀ x, x ∈ sources ↔ r.old.ring.contains x.shard = true ∧
            (c.replicas.look name).settled r.shards x.shard x.peer = some x.state) ∧
          e = Effects.deleting name (r.targetSlice op.shard) sources ++ { finished := [op] }) ∨
      (op.direction = .down ∧ Redone c c' name (coll.setRouter op.key r') none
          (((c.replicas.look name).settled r.shards).without [op.shard]) ∧
        ∃ removed, removed.Pairwise (fun a b => ¬(a.shard = b.shard ∧ a.peer = b.peer)) ∧
          (∀ x, x ∈ removed ↔ x.shard = op.shard ∧
            (c.replicas.look name).settled r.shards x.shard x.peer = some x.state) ∧
          e = Effects.dropping name removed ++ { finished := [op] })) := by
  simp only [finishResharding, bind_eq_ok] at h
  obtain ⟨⟨c₁, key⟩, hadv, h⟩ := h
  obtain ⟨coll, op, next, hc, ho, hn, hc₁, -⟩ := advance_eq_ok.1 hadv
  obtain ⟨hstage, rfl⟩ : op.stage = .awaitingFinish ∧ next = none := by
    cases hst : op.stage <;> simp_all [Stage.next]
  have hc₁ : { c with operations := c.operations.insert name op } = c₁ := hc₁
  subst hc₁
  simp only [operation?, get?_insert_self, bind_eq_ok] at h
  obtain ⟨r, hr, r', hr', ⟨table, settled⟩, hsettle, c₂, hset, h⟩ := h
  obtain ⟨_, hc', hr⟩ := router_eq_ok.1 hr
  obtain rfl := Option.some.inj (hc.symm.trans hc')
  obtain ⟨_, hc', rfl⟩ := setRouter_eq_ok.1 hset
  obtain rfl := Option.some.inj (hc.symm.trans hc')
  obtain ⟨hdraw, -⟩ := settleReplicas_redrawn hsettle
  have hop : ∀ n, ((c.operations.insert name op).erase name).get? n =
      if n = name then none else c.operations.get? n := by
    intro n
    by_cases hn : n = name <;> simp [hn, get?_erase, get?_insert]
  cases hd : op.direction with
  | up =>
    simp only [hd, bind_eq_ok, pure_eq_ok, Prod.mk.injEq] at h
    obtain ⟨sources, hsrc, rfl, rfl⟩ := h
    obtain ⟨-, hmem⟩ := replicasOf_ok hsrc
    rw [hdraw.look_eq] at hmem
    refine ⟨coll, op, r, r', by rw [face, hc, ho], hstage, hr, hr', rfl, .inl ⟨hd,
      Redone.edit c.epoch (coll.setRouter op.key r') hdraw hop, sources,
      replicasOf_apart (keys_nodup _) hsrc, fun x => ?_, rfl⟩⟩
    rw [hmem x, SortedSet.mem_toList, Ring.contains]
  | down =>
    simp only [hd, bind_eq_ok, pure_eq_ok, Prod.mk.injEq] at h
    obtain ⟨⟨table', removed⟩, hrem, rfl, rfl⟩ := h
    obtain ⟨hdraw', hmem⟩ := removeShard_redrawn hrem
    rw [hdraw.look_eq] at hdraw' hmem
    exact ⟨coll, op, r, r', by rw [face, hc, ho], hstage, hr, hr', rfl, .inr ⟨hd,
      Redone.edit c.epoch (coll.setRouter op.key r') (hdraw.trans hdraw') hop, removed,
      removeShard_apart hrem, hmem, rfl⟩⟩

theorem finishResharding_touched (h : c.finishResharding name = .ok (c', e)) :
    Touched (Change name (c.epoch + 1) (.finishResharding name)) 0 name c e c' := by
  obtain ⟨coll, op, r, r', hf, hstage, hr, hr', hepoch, ⟨hd, hdone, sources, -, hmem, rfl⟩ |
    ⟨hd, hdone, removed, -, hmem, rfl⟩⟩ := finishResharding_redone h
  · refine hdone.touched (fun o h => by cases h) (by rw [hepoch, UInt64.add_zero]) (fun n hn => ?_) ?_
    · rw [Effects.wake_append, Effects.wake_deleting_of_ne hn, Effects.wake_still n rfl rfl rfl rfl,
        Wake.append_still]
    · have hw : (Effects.deleting name (r.targetSlice op.shard) sources).wake name =
          ⟨fun _ => False, fun q p id => r.old.ring.contains q = true ∧
            (c.replicas.look name q p).isSome ∧ (r.targetSlice op.shard).selects id = true, []⟩ := by
        rw [Effects.wake_deleting]
        refine Wake.congr (fun _ => Iff.rfl) (fun q p id => ?_) rfl
        rw [ReplicaTable.exists_replica (P := (r.old.ring.contains · = true)) hmem, settled_isSome, and_assoc]
      rw [hf, Effects.wake_append, hw, Effects.wake_still name rfl rfl rfl rfl, Wake.append_still]
      exact .finishedUp hstage hr hr' hd
  · refine hdone.touched (fun o h => by cases h) (by rw [hepoch, UInt64.add_zero]) (fun n hn => ?_) ?_
    · rw [Effects.wake_append, Effects.wake_dropping_of_ne hn, Effects.wake_still n rfl rfl rfl rfl,
        Wake.append_still]
    · have hw : (Effects.dropping name removed).wake name = ⟨fun _ => False,
          fun q p _ => q = op.shard ∧ (c.replicas.look name q p).isSome, []⟩ := by
        rw [Effects.wake_dropping]
        refine Wake.congr (fun _ => Iff.rfl) (fun q p id => ?_) rfl
        rw [ReplicaTable.exists_replica (P := (· = op.shard)) hmem, settled_isSome]
      rw [hf, Effects.wake_append, hw, Effects.wake_still name rfl rfl rfl rfl, Wake.append_still]
      exact .finishedDown hstage hr hr' hd

/-- The replicas that an operation fills, if it may. -/
theorem claimReplicas_redrawn {t t' : ReplicaTable} {op : Operation} {transfers : List Transfer}
    (h : claimReplicas t op transfers = .ok t') :
    Redrawn t t' op.collection ((t.look op.collection).claimed op transfers) ∧
      (op.direction = .down → ∀ x ∈ transfers,
        (t.look op.collection x.key.toShard x.key.target).isSome) := by
  cases hd : op.direction with
  | up =>
    simp only [claimReplicas, hd] at h
    simp only [Layout.claimed, hd]
    exact ⟨insert_redrawn h, fun h => by cases h⟩
  | down =>
    rw [claimReplicas_down hd] at h
    obtain ⟨hdraw, hex⟩ := mark_redrawn h
    simp only [Layout.claimed, hd]
    refine ⟨hdraw, fun _ x hx => ?_⟩
    obtain ⟨old, ho⟩ := hex x.key.destination (List.mem_map_of_mem hx)
    exact Option.isSome_iff_exists.2 ⟨old, ho⟩

theorem startResharding_touched {plan : Plan} (h : c.startResharding plan = .ok (c', e)) :
    Touched (Change plan.operation.collection (c.epoch + 1) (.startResharding plan)) 1
      plan.operation.collection c e c' := by
  obtain ⟨hidle, -, coll, r, r', table, hc, ht, hr, hr', hclaim, rfl, rfl⟩ := startResharding_eq_ok.1 h
  obtain ⟨hdraw, hl⟩ := claimReplicas_redrawn hclaim
  have hspawn : ∀ x ∈ ((plan.transfers.map (fun t => { t with epoch := c.epoch + 1 })).filter
      (·.status == .running)).map (copyOf plan.operation.collection r'),
      x.collection = plan.operation.collection := by
    intro x hx
    obtain ⟨t, -, rfl⟩ := List.mem_map.1 hx
    rfl
  have hspawned := Effects.wake_spawning plan.operation.collection (e := {
    spawn := ((plan.transfers.map (fun t => { t with epoch := c.epoch + 1 })).filter
      (·.status == .running)).map (copyOf plan.operation.collection r')
    started := [{ plan.operation with stage := .starting }] }) rfl rfl rfl hspawn
  have hdone := Redone.edit (c.epoch + 1)
    { coll.setRouter plan.operation.key r' with
      transfers := plan.transfers.map (fun t => { t with epoch := c.epoch + 1 }) }
    hdraw (fun n => get?_insert c.operations plan.operation.collection n
      { plan.operation with stage := if plan.transfers = [] then .awaitingReadCommit else .starting })
  refine hdone.touched (fun o h => ?_) rfl hspawned.2 ?_
  · obtain rfl := Option.some.inj h
    rfl
  · rw [face, hc, hidle, hspawned.1]
    exact .started rfl ht hr hr' hl

theorem rollBack_none (ho : c.operations.get? name = none) (forced : Bool) (reason : String) :
    c.rollBack name forced reason = .ok (c, {}) := by
  simp [rollBack, operation?, ho]

/-- A rollback gives the rings, the transfers and the replicas of an operation up, and asks for what
that leaves to be done. -/
theorem rollBack_cases {op : Operation} {forced : Bool} {reason : String}
    (ho : c.operations.get? name = some op) (h : c.rollBack name forced reason = .ok (c', e)) :
    ∃ coll r table cleanup, c.collections.get? name = some coll ∧ coll.router op.key = .ok r ∧
      c' = { c with
        collections := c.collections.insert name ((coll.take (·.resharding)).1.setRouter op.key r.abort)
        replicas := table
        operations := c.operations.erase name } ∧
      e = Effects.cancelling name (coll.take (·.resharding)).2 ++ cleanup ++
        { aborted := [⟨op, forced, reason⟩] } ∧
      ((op.direction = .up ∧ ∃ removed, c.replicas.removeShard name op.shard = .ok (table, removed) ∧
          cleanup = Effects.dropping name removed) ∨
        (op.direction = .down ∧ ∃ restored,
          settleReplicas c.replicas name r.shards = .ok (table, restored) ∧
          cleanup = Effects.deleting name (r.slice op.shard) restored)) := by
  simp only [rollBack, operation?, ho, bind_eq_ok, collection_eq_ok] at h
  obtain ⟨coll, hc, r, hr, h⟩ := h
  cases hd : op.direction with
  | up =>
    simp only [hd, bind_eq_ok, pure_eq_ok, Prod.mk.injEq] at h
    obtain ⟨⟨table, removed⟩, hrem, _, rfl, rfl, rfl⟩ := h
    exact ⟨coll, r, table, _, hc, hr, rfl, rfl, .inl ⟨rfl, removed, hrem, rfl⟩⟩
  | down =>
    simp only [hd, bind_eq_ok, pure_eq_ok, Prod.mk.injEq] at h
    obtain ⟨⟨table, restored⟩, hsettle, _, rfl, rfl, rfl⟩ := h
    exact ⟨coll, r, table, _, hc, hr, rfl, rfl, .inr ⟨rfl, restored, hsettle, rfl⟩⟩

theorem rollBack_touched {op : Operation} {forced : Bool} {reason : String}
    (ho : c.operations.get? name = some op) (h : c.rollBack name forced reason = .ok (c', e)) :
    Touched RollsBack 0 name c e c' := by
  obtain ⟨coll, r, table, cleanup, hc, hr, rfl, rfl, hcase⟩ := rollBack_cases ho h
  have hf : c.face name = ⟨some coll, some op, c.replicas.look name⟩ := by rw [face, hc, ho]
  have hop : ∀ n, (c.operations.erase name).get? n = if n = name then none else c.operations.get? n :=
    fun n => get?_erase c.operations name n
  have hcancel : (Effects.cancelling name (coll.take (·.resharding)).2).wake name =
      ⟨fun k => ∃ t ∈ coll.transfers, t.resharding = true ∧ t.key = k, fun _ _ _ => False, []⟩ := by
    rw [Effects.wake_cancelling]
    refine Wake.congr (fun k => ?_) (fun _ _ _ => Iff.rfl) rfl
    simp [Collection.take, and_assoc]
  obtain ⟨hd, removed, hrem, rfl⟩ | ⟨hd, restored, hsettle, rfl⟩ := hcase
  · obtain ⟨hdraw, hmem⟩ := removeShard_redrawn hrem
    have hdone := Redone.edit c.epoch ((coll.take (·.resharding)).1.setRouter op.key r.abort) hdraw hop
    refine hdone.touched (fun o h => by cases h) (UInt64.add_zero c.epoch).symm (fun n hn => ?_) ?_
    · rw [Effects.wake_append, Effects.wake_append, Effects.wake_cancelling_of_ne hn,
        Effects.wake_dropping_of_ne hn, Effects.wake_still n rfl rfl rfl rfl, Wake.append_still,
        Wake.append_still]
    · have hdrop : (Effects.dropping name removed).wake name = ⟨fun _ => False,
          fun q p _ => q = op.shard ∧ (c.replicas.look name q p).isSome, []⟩ := by
        rw [Effects.wake_dropping]
        refine Wake.congr (fun _ => Iff.rfl) (fun q p id => ?_) rfl
        rw [ReplicaTable.exists_replica (P := (· = op.shard)) hmem]
      have hw := RollsBack.up (l := c.replicas.look name) hr hd
      rw [hf, Effects.wake_append, Effects.wake_append, hcancel, hdrop,
        Effects.wake_still name rfl rfl rfl rfl, Wake.append_still]
      simpa [Wake.append_def] using hw
  · obtain ⟨hdraw, hmem⟩ := settleReplicas_redrawn hsettle
    have hdone := Redone.edit c.epoch ((coll.take (·.resharding)).1.setRouter op.key r.abort) hdraw hop
    refine hdone.touched (fun o h => by cases h) (UInt64.add_zero c.epoch).symm (fun n hn => ?_) ?_
    · rw [Effects.wake_append, Effects.wake_append, Effects.wake_cancelling_of_ne hn,
        Effects.wake_deleting_of_ne hn, Effects.wake_still n rfl rfl rfl rfl, Wake.append_still,
        Wake.append_still]
    · have hdel : (Effects.deleting name (r.slice op.shard) restored).wake name = ⟨fun _ => False,
          fun q p id => c.replicas.look name q p = some .resharding ∧ q ∈ r.shards ∧
            (r.slice op.shard).selects id = true, []⟩ := by
        rw [Effects.wake_deleting]
        refine Wake.congr (fun _ => Iff.rfl) (fun q p id => ?_) rfl
        constructor
        · intro h
          obtain ⟨⟨x, hx, rfl, rfl⟩, hs⟩ := h
          exact ⟨((hmem x).1 hx).1, ((hmem x).1 hx).2.1, hs⟩
        · intro h
          exact ⟨⟨⟨q, p, .resharding⟩, (hmem _).2 ⟨h.1, h.2.1, rfl⟩, rfl, rfl⟩, h.2.2⟩
      have hw := RollsBack.down (l := c.replicas.look name) hr hd
      rw [hf, Effects.wake_append, Effects.wake_append, hcancel, hdel,
        Effects.wake_still name rfl rfl rfl rfl, Wake.append_still]
      simpa [Wake.append_def] using hw

theorem abortResharding_touched {forced : Bool} {reason : String}
    (h : c.abortResharding name forced reason = .ok (c', e)) : Touched RollsBack 0 name c e c' := by
  obtain ⟨coll, next, hc, hn, h⟩ := abortResharding_eq_ok.1 h
  cases ho : c.operations.get? name with
  | none => simp [stage?, operation?, ho, Stage.next] at hn
  | some op => exact rollBack_touched ho h

end ShardCluster.Cluster
