import ShardCluster.Proofs.Cluster.Rollback
/-! Whether an operation can go on to its next stage. The commits always can. The end of an operation
that adds a shard looks up the replicas of every shard that was there before, and fails where one has
lost them all. -/
namespace ShardCluster
open SortedMap

namespace ReplicaTable
variable {t : ReplicaTable} {name : String} {q : ShardId}

/-- A shard without replicas is not found. -/
theorem shardReplicas_of_bare (ht : t.Tidy) (hk : t.collections.contains name = true)
    (hl : ∀ p, t.look name q p = none) : t.shardReplicas name q = .error (.shardNotFound q) := by
  obtain ⟨shards, hs⟩ := contains_iff.1 hk
  cases hq : shards.get? q with
  | none => simp [shardReplicas, shardsOf_eq_ok.2 hs, hq, bind, Except.bind, throw, throwThe,
      MonadExceptOf.throw]
  | some peers =>
    have hfull : peers.isEmpty = false := ht name shards q peers hs hq
    have hempty : peers.isEmpty = true := isEmpty_iff.2 fun p => by
      have hp := hl p
      simpa [look, hs, hq] using hp
    rw [hempty] at hfull
    cases hfull

end ReplicaTable

namespace Cluster
variable {c : Cluster} {name : String} {op : Operation}

/-- The replicas of some shards are found, or one of the shards has none. -/
theorem replicasOf_cases {t : ReplicaTable} (ht : t.Tidy)
    (hk : t.collections.contains name = true) (shards : List ShardId) :
    (∃ l, replicasOf t name shards = .ok l ∧ ∀ q ∈ shards, ∃ p, (t.look name q p).isSome) ∨
    ∃ q ∈ shards, (∀ p, t.look name q p = none) ∧
      replicasOf t name shards = .error (.shardNotFound q) := by
  induction shards with
  | nil => exact .inl ⟨[], rfl, nofun⟩
  | cons q rest ih =>
    by_cases hl : ∃ p, (t.look name q p).isSome
    · obtain ⟨p, hp⟩ := hl
      obtain ⟨s, hs⟩ := Option.isSome_iff_exists.1 hp
      obtain ⟨here, hhere⟩ := ReplicaTable.shardReplicas_of_look hs
      obtain ⟨l, hrest, hall⟩ | ⟨q', hin, hbare, hrest⟩ := ih
      · refine .inl ⟨here ++ l, by simp [replicasOf, hhere, hrest, bind, Except.bind, pure_eq_ok], ?_⟩
        exact List.forall_mem_cons.2 ⟨⟨p, hp⟩, hall⟩
      · refine .inr ⟨q', List.mem_cons_of_mem _ hin, hbare, ?_⟩
        simp [replicasOf, hhere, hrest, bind, Except.bind]
    · have hbare : ∀ p, t.look name q p = none := by simpa using hl
      refine .inr ⟨q, List.mem_cons_self, hbare, ?_⟩
      simp [replicasOf, ReplicaTable.shardReplicas_of_bare ht hk hbare, bind, Except.bind]

/-- A commit in its own stage is accepted, if the router takes it. -/
theorem commit_ok {a : Action} {s : Stage} {f : Router → Except Error Router}
    (hl : (c.face name).Agrees) (ho : c.operations.get? name = some op)
    (hn : Stage.next true (some op.stage) a = .ok (some s))
    (hf : ∀ r, r.Follows op → ∃ r', f r = .ok r') : ∃ c' e, c.commit name a f = .ok (c', e) := by
  obtain ⟨coll, r, hc, hr, hfollows⟩ := hl.live op ho
  have hc : c.collections.get? name = some coll := hc
  obtain ⟨r', hr'⟩ := hf r hfollows
  exact ⟨_, _, commit_eq_ok.2 ⟨coll, op, _, r, r', hc, ho, hn, hr, hr', rfl, rfl⟩⟩

theorem commitRead_ok (hl : (c.face name).Agrees) (ho : c.operations.get? name = some op)
    (hs : op.stage = .awaitingReadCommit) : ∃ c' e, c.commitRead name = .ok (c', e) :=
  commit_ok hl ho (by rw [hs]; rfl) fun r hf => by
    obtain ⟨ring, -, hn⟩ := hf.new
    exact ⟨_, Router.commitRead_eq_ok.2 ⟨_, hn, rfl⟩⟩

theorem commitWrite_ok (hl : (c.face name).Agrees) (ho : c.operations.get? name = some op)
    (hs : op.stage = .awaitingWriteCommit) : ∃ c' e, c.commitWrite name = .ok (c', e) :=
  commit_ok hl ho (by rw [hs]; rfl) fun r hf => by
    obtain ⟨ring, -, hn⟩ := hf.new
    exact ⟨_, Router.commitWrite_eq_ok.2 ⟨_, hn, rfl⟩⟩

/-- What is left to do when the stage, the rings and the replicas have been settled. -/
theorem finishResharding_eq {coll : Collection} {r r' : Router} {table : ReplicaTable}
    {settled : List Replica} (hc : c.collections.get? name = some coll)
    (ho : c.operations.get? name = some op) (hs : op.stage = .awaitingFinish)
    (hr : coll.router op.key = .ok r) (hr' : r.finish = .ok r')
    (hsettle : settleReplicas c.replicas name r.shards = .ok (table, settled)) :
    ∃ c₁ : Cluster, c.finishResharding name = match op.direction with
      | .up => do
        let sources ← replicasOf table name r.old.ring.shards.toList
        return ({ c₁ with replicas := table },
          Effects.deleting name (r.targetSlice op.shard) sources ++ { finished := [op] })
      | .down => do
        let (table, removed) ← table.removeShard name op.shard
        return ({ c₁ with replicas := table },
          Effects.dropping name removed ++ { finished := [op] }) := by
  let same : Cluster := { c with operations := c.operations.insert name op }
  let without : Cluster := { same with operations := same.operations.erase name }
  have hadv : c.advance name .finish = .ok (same, op.key) :=
    advance_eq_ok.2 ⟨coll, op, none, hc, ho, by rw [hs]; rfl, rfl, rfl⟩
  have hop : same.operations.get? name = some op := get?_insert_self _ _ _
  have hrouter : same.router name op.key = .ok r := router_eq_ok.2 ⟨coll, hc, hr⟩
  have hset : Cluster.setRouter { same with operations := same.operations.erase name } name
      op.key r' = .ok (without.setCollection name (coll.setRouter op.key r')) :=
    setRouter_eq_ok.2 ⟨coll, hc, rfl⟩
  have hsettle : settleReplicas same.replicas name r.shards = .ok (table, settled) := hsettle
  refine ⟨without.setCollection name (coll.setRouter op.key r'), ?_⟩
  simp only [finishResharding, hadv, operation?, hop, hrouter, hr', bind, Except.bind]
  rewrite [hsettle, hset]
  rfl

/-- The end of an operation is accepted, or a shard that was there before has no replica. -/
theorem finishResharding_cases (hs : c.Sound) (hl : (c.face name).Agrees)
    (ho : c.operations.get? name = some op) (hstage : op.stage = .awaitingFinish) :
    (∃ c' e, c.finishResharding name = .ok (c', e)) ∧ (op.direction = .up → ∀ r,
      c.router name op.key = .ok r → ∀ q, r.old.ring.contains q = true →
        ∃ p, (c.replicas.look name q p).isSome) ∨
    op.direction = .up ∧ ∃ r q, c.router name op.key = .ok r ∧ r.old.ring.contains q = true ∧
      (∀ p, c.replicas.look name q p = none) ∧
      c.finishResharding name = .error (.shardNotFound q) := by
  obtain ⟨coll, r, hc, hr, hfollows⟩ := hl.live op ho
  have hc : c.collections.get? name = some coll := hc
  have hrouter : c.router name op.key = .ok r := router_eq_ok.2 ⟨coll, hc, hr⟩
  have hknown : c.replicas.collections.contains name = true := by
    rw [hs.registered]
    exact contains_iff.2 ⟨coll, hc⟩
  obtain ⟨ring, -, hn⟩ := hfollows.new
  obtain ⟨table, settled, hsettle⟩ := settleReplicas_ok hknown r.shards
  obtain ⟨hdraw, -⟩ := settleReplicas_redrawn hsettle
  have hlook : ∀ q p, (table.look name q p).isSome = (c.replicas.look name q p).isSome :=
    fun q p => by rw [hdraw.look_eq, settled_isSome]
  have hknown' : table.collections.contains name = true := (hdraw.known name).trans hknown
  obtain ⟨c₁, heq⟩ := finishResharding_eq hc ho hstage hr (Router.finish_eq_ok.2 ⟨_, hn, rfl⟩) hsettle
  cases hd : op.direction with
  | down =>
    obtain ⟨table', removed, hremoved⟩ := ReplicaTable.removeShard_ok hknown' op.shard
    simp only [hd, hremoved, bind, Except.bind] at heq
    exact .inl ⟨⟨_, _, heq⟩, nofun⟩
  | up =>
    obtain ⟨l, hfound, hall⟩ | ⟨q, hin, hbare, hfound⟩ :=
      replicasOf_cases (hdraw.tidy hs.tidy) hknown' r.old.ring.shards.toList
    · simp only [hd, hfound, bind, Except.bind] at heq
      refine .inl ⟨⟨_, _, heq⟩, fun _ r₁ hr₁ q hq => ?_⟩
      obtain rfl := Except.ok.inj (hrouter.symm.trans hr₁)
      obtain ⟨p, hp⟩ := hall q (SortedSet.mem_toList.2 hq)
      exact ⟨p, (hlook q p).symm.trans hp⟩
    · simp only [hd, hfound, bind, Except.bind] at heq
      refine .inr ⟨rfl, r, q, hrouter, SortedSet.mem_toList.1 hin, fun p => ?_, heq⟩
      have hp := hlook q p
      rw [hbare p] at hp
      simpa using hp.symm

/-- Both commits are accepted in their stages. The end of an operation is refused only where a shard
is looked up that has no replica, and that is so only where the operation adds a shard. -/
theorem forward_of_reached (h : Reached Planned c) (ho : c.operation? name = some op) :
    (op.stage = .awaitingReadCommit → ∃ c' e, c.apply (.commitRead name) = .ok (c', e)) ∧
    (op.stage = .awaitingWriteCommit → ∃ c' e, c.apply (.commitWrite name) = .ok (c', e)) ∧
    (op.stage = .awaitingFinish →
      ((∃ c' e, c.apply (.finishResharding name) = .ok (c', e)) ↔
        (op.direction = .up → ∀ r, c.router name op.key = .ok r → ∀ q,
          r.old.ring.contains q = true → ∃ p, c.replicas.contains name q p = true)) ∧
      ∀ err, c.apply (.finishResharding name) = .error err →
        ∃ q, err = .shardNotFound q ∧ ∀ p, c.replicas.contains name q p = false) := by
  have hagrees := (h.fits name).agrees
  refine ⟨commitRead_ok hagrees ho, commitWrite_ok hagrees ho, fun hs => ?_⟩
  simp only [ReplicaTable.contains_eq]
  have hfinish : c.apply (.finishResharding name) = c.finishResharding name := rfl
  rw [hfinish]
  obtain ⟨hok, hall⟩ | ⟨hd, r, q, hr, hq, hbare, herr⟩ :=
    finishResharding_cases h.sound hagrees ho hs
  · refine ⟨⟨fun _ => hall, fun _ => hok⟩, fun err herr => ?_⟩
    obtain ⟨c', e, hok⟩ := hok
    cases hok.symm.trans herr
  · refine ⟨⟨fun hok => ?_, fun hall => ?_⟩, fun err herr' => ⟨q, ?_, fun p => ?_⟩⟩
    · obtain ⟨c', e, hok⟩ := hok
      cases hok.symm.trans herr
    · obtain ⟨p, hp⟩ := hall hd r hr q hq
      rw [hbare p] at hp
      cases hp
    · exact (Except.error.inj (herr.symm.trans herr')).symm
    · rw [hbare p]
      rfl

/-- A shard that is added from two others. The second of these loses its only replica when its peer
is removed by force; what follows is the commit for writes. -/
def deserted : Except Error (Cluster × Plan × Cluster × Cluster) := do
  let c₀ ← replay 1 1 [.addPeer 1, .addPeer 2,
    .createCollection "points" {} (.ofList [(0, [1]), (1, [2])])]
  let plan ← c₀.plan "points" { direction := .up, peer := some 1 } .last .epoch
  let (c, _) ← c₀.apply (.startResharding plan)
  let c₁ ← c.applyAll [.finishTransfer "points" ⟨0, 2, 1, 1⟩ 1, .finishTransfer "points" ⟨1, 2, 2, 1⟩ 1,
    .commitRead "points", .removePeer 2 true]
  let (c₂, _) ← c₁.apply (.commitWrite "points")
  return (c₀, plan, c₁, c₂)

theorem deserted_ok : ∃ c₀ plan c₁ c₂, deserted = .ok (c₀, plan, c₁, c₂) ∧
    Reached Planned c₁ ∧ c₁.stage? "points" = some .awaitingWriteCommit ∧
    Reached Planned c₂ ∧ c₂.stage? "points" = some .awaitingFinish ∧
    c₂.apply (.finishResharding "points") = .error (.shardNotFound 1) := by
  have hrun : deserted.toOption.map (fun x => (x.2.2.1.stage? "points", x.2.2.2.stage? "points",
      match x.2.2.2.apply (.finishResharding "points") with
      | .ok _ => none
      | .error err => some err)) =
      some (some .awaitingWriteCommit, some .awaitingFinish, some (.shardNotFound 1)) := by
    decide +kernel
  cases h : deserted with
  | error err =>
    rw [h] at hrun
    cases hrun
  | ok x =>
    obtain ⟨_, _, _, _⟩ := x
    rw [h] at hrun
    obtain ⟨hwrite, hfinish⟩ := Prod.mk.inj (Option.some.inj hrun)
    obtain ⟨hfinish, hrefused⟩ := Prod.mk.inj hfinish
    simp only [deserted, bind_eq_ok, pure_eq_ok, Prod.mk.injEq] at h
    obtain ⟨c₀, hfound, plan, hplan, ⟨c, e⟩, hstart, c₁, hlater, ⟨c₂, e₂⟩, hcommit, rfl, rfl, rfl,
      rfl⟩ := h
    have hnew : Reached Planned (.new 1 1) := .new 1 1
    have h₀ : Reached Planned c₀ := hnew.applyAll (by simp [Planned]) hfound
    have h₁ : Reached Planned c₁ := by
      refine (h₀.step (fun plan' he => ?_) hstart).applyAll (by simp [Planned]) hlater
      obtain rfl := Entry.startResharding.inj he
      exact ⟨_, _, _, _, hplan⟩
    refine ⟨c₀, plan, c₁, c₂, rfl, h₁, hwrite, h₁.step (by simp [Planned]) hcommit, hfinish, ?_⟩
    cases hx : c₂.apply (.finishResharding "points") with
    | ok y =>
      rw [hx] at hrefused
      cases hrefused
    | error err =>
      rw [hx] at hrefused
      rw [Option.some.inj hrefused]

/-- The commit goes on after the removal. -/
theorem forward_deserted : ∃ c op, Reached Planned c ∧ c.operation? "points" = some op ∧
    op.stage = .awaitingWriteCommit ∧ ∃ c' e, c.apply (.commitWrite "points") = .ok (c', e) := by
  obtain ⟨_, _, c, _, -, hreached, hstage, -⟩ := deserted_ok
  obtain ⟨op, ho, hs⟩ := Option.map_eq_some_iff.1 hstage
  exact ⟨c, op, hreached, ho, hs, (forward_of_reached hreached ho).2.1 hs⟩

/-- Then the operation cannot end. -/
theorem finish_deserted : ∃ c op, Reached Planned c ∧ c.operation? "points" = some op ∧
    op.stage = .awaitingFinish ∧
    c.apply (.finishResharding "points") = .error (.shardNotFound 1) := by
  obtain ⟨_, _, _, c, -, -, -, hreached, hstage, hrefused⟩ := deserted_ok
  obtain ⟨op, ho, hs⟩ := Option.map_eq_some_iff.1 hstage
  exact ⟨c, op, hreached, ho, hs, hrefused⟩

end Cluster
end ShardCluster
