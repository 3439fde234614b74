import ShardCluster.Cluster.Shape
import ShardCluster.Proofs.Cluster.Redone
/-! When a cluster accepts an entry, and what the entry then comes to. What follows of accepted entries
is read off these equivalences, each of which opens the function it speaks of. -/
namespace ShardCluster.Cluster
open SortedMap
variable {c c' : Cluster} {name : String} {coll : Collection} {e : Effects} {peer : PeerId}

theorem requirePeer_eq_ok {u : Unit} : c.requirePeer peer = .ok u ↔ c.peers.contains peer = true := by
  unfold requirePeer
  split <;> simp_all

theorem requireCustom_eq_ok {u : Unit} :
    requireCustom name coll = .ok u ↔ coll.config.method = .custom := by
  by_cases hm : coll.config.method = .custom <;> simp [requireCustom, hm]

theorem checkEpoch_eq_ok {t : Transfer} {epoch : UInt64} {u : Unit} :
    checkEpoch t epoch = .ok u ↔ t.epoch = epoch := by
  by_cases h : t.epoch = epoch <;> simp [checkEpoch, h]

theorem addPeer_eq_ok : c.addPeer peer = .ok (c', e) ↔
    c.peers.contains peer = false ∧ c' = { c with peers := SortedSet.add c.peers peer } ∧ e = {} := by
  by_cases h : c.peers.contains peer = true <;> simp [addPeer, h, eq_comm]

/-- What the removal of a peer asks for, past the rollbacks: the transfers that involve it end, and the
replicas it was filling or hosting are dropped. -/
def evictions (c : Cluster) (peer : PeerId) (force : Bool) (table : ReplicaTable) : Effects where
  cancel := (c.dropTransfersOf peer).2.1
  cleanup := (c.dropTransfersOf peer).2.2.map (fun e => Cleanup.drop (e.2.targetLocation e.1)) ++
    (table.onPeer peer).map (fun e => Cleanup.drop (e.2.location e.1))
  events := [.peerRemoved peer force]

/-- The cluster that a peer leaves behind. -/
def evict (c : Cluster) (peer : PeerId) (table : ReplicaTable) : Cluster :=
  { (c.dropTransfersOf peer).1 with replicas := table, peers := c.peers.erase peer }

theorem removePeer_eq_ok {force : Bool} : c.removePeer peer force = .ok (c', e) ↔
    c.peers.contains peer = true ∧ (force = false → c.replicas.onPeer peer = []) ∧
    ∃ c₁ e₁ table table', c.forceAborts (.peerRemoved peer force) = .ok (c₁, e₁) ∧
      removeReplicas c₁.replicas
        ((c₁.dropTransfersOf peer).2.2.map (fun x => (x.1, x.2.toShard, x.2.target))) = .ok table ∧
      removeReplicas table ((table.onPeer peer).map (fun x => (x.1, x.2.shard, peer))) = .ok table' ∧
      c' = c₁.evict peer table' ∧ e = e₁ ++ c₁.evictions peer force table := by
  have hfree : ¬(!force && !(c.replicas.onPeer peer).isEmpty) = true ↔
      (force = false → c.replicas.onPeer peer = []) := by
    cases force <;> simp
  simp only [removePeer, bind_eq_ok, throw_eq_ok, ite_eq_ok, false_and, exists_false, and_false,
    false_or, pure_eq_ok, Prod.mk.injEq, requirePeer_eq_ok, hfree]
  constructor
  · intro h
    obtain ⟨-, hp, hf, ⟨c₁, e₁⟩, habort, table, hcut, table', hcut', rfl, rfl⟩ := h
    exact ⟨hp, hf, c₁, e₁, table, table', habort, hcut, hcut', rfl, rfl⟩
  · intro h
    obtain ⟨hp, hf, c₁, e₁, table, table', habort, hcut, hcut', rfl, rfl⟩ := h
    exact ⟨(), hp, hf, (c₁, e₁), habort, table, hcut, table', hcut', rfl, rfl⟩

theorem createCollection_eq_ok {config : CollectionConfig} {placement : Placement} :
    c.createCollection name config placement = .ok (c', e) ↔
    c.collections.contains name = false ∧ ¬(config.shardNumber = 0 ∨ config.replicationFactor = 0) ∧
    c.checkPlacement placement.entries = .ok () ∧ ∃ groups table,
      (config.method = .auto ∧ placement.isEmpty = false ∧ groups =
          SortedMap.empty.insert none (Router.single (.ofShards c.ringPositions placement.keys)) ∨
        config.method = .custom ∧ placement.isEmpty = true ∧ groups = SortedMap.empty) ∧
      insertPlacement (c.replicas.register name) name placement = .ok table ∧
      c' = { c with
        replicas := table
        collections := c.collections.insert name { config, groups } } ∧ e = {} := by
  simp only [createCollection, bind_eq_ok, throw_eq_ok, ite_eq_ok, false_and, exists_false, and_false,
    false_or, Bool.not_eq_true]
  refine and_congr_right fun _ => and_congr_right fun _ => ?_
  cases config.method with
  | auto =>
    simp only [throw_eq_ok, ite_eq_ok, false_and, exists_false, and_false, false_or, bind_eq_ok, pure_eq_ok,
      Prod.mk.injEq, reduceCtorEq, or_false, true_and, Bool.not_eq_true]
    constructor
    · intro h
      obtain ⟨hp, _, rfl, _, hcheck, table, hins, rfl, rfl⟩ := h
      exact ⟨hcheck, _, table, ⟨hp, rfl⟩, hins, rfl, rfl⟩
    · intro h
      obtain ⟨hcheck, _, table, ⟨hp, rfl⟩, hins, rfl, rfl⟩ := h
      exact ⟨hp, _, rfl, (), hcheck, table, hins, rfl, rfl⟩
  | custom =>
    simp only [throw_eq_ok, ite_eq_ok, false_and, exists_false, and_false, or_false, bind_eq_ok, pure_eq_ok,
      Prod.mk.injEq, reduceCtorEq, false_or, true_and]
    constructor
    · intro h
      obtain ⟨hp, _, rfl, _, hcheck, table, hins, rfl, rfl⟩ := h
      exact ⟨hcheck, _, table, ⟨hp, rfl⟩, hins, rfl, rfl⟩
    · intro h
      obtain ⟨hcheck, _, table, ⟨hp, rfl⟩, hins, rfl, rfl⟩ := h
      exact ⟨hp, _, rfl, (), hcheck, table, hins, rfl, rfl⟩

theorem deleteCollection_eq_ok : c.deleteCollection name = .ok (c', e) ↔
    ∃ coll c₁ e₁, c.collections.get? name = some coll ∧
      c.forceAborts (.collectionDeleted name) = .ok (c₁, e₁) ∧
      c' = { c₁ with
        replicas := (c₁.replicas.removeCollection name).1
        collections := c₁.collections.erase name } ∧
      e = e₁ ++ Effects.cancelling name (c₁.transfers name) ++
        Effects.dropping name (c₁.replicas.removeCollection name).2 ++
          { events := [.collectionDeleted name] } := by
  simp only [deleteCollection, bind_eq_ok, collection_eq_ok, pure_eq_ok, Prod.mk.injEq]
  constructor
  · intro h
    obtain ⟨coll, hc, ⟨c₁, e₁⟩, habort, rfl, rfl⟩ := h
    exact ⟨coll, c₁, e₁, hc, habort, rfl, rfl⟩
  · intro h
    obtain ⟨coll, c₁, e₁, hc, habort, rfl, rfl⟩ := h
    exact ⟨coll, hc, (c₁, e₁), habort, rfl, rfl⟩

theorem createShardKey_eq_ok {key : ShardKey} {placement : Placement} :
    c.createShardKey name key placement = .ok (c', e) ↔
    ∃ coll table, c.collections.get? name = some coll ∧ coll.config.method = .custom ∧
      coll.groups.contains (some key) = false ∧ placement.isEmpty = false ∧
      (∀ q ∈ placement.keys, coll.shardSet.contains q = false) ∧
      c.checkPlacement placement.entries = .ok () ∧
      insertPlacement c.replicas name placement = .ok table ∧
      c' = { c.setCollection name
          (coll.setRouter (some key) (.single (.ofShards c.ringPositions placement.keys))) with
        replicas := table } ∧ e = {} := by
  simp only [createShardKey, bind_eq_ok, collection_eq_ok, throw_eq_ok, ite_eq_ok, false_and,
    exists_false, and_false, false_or, requireCustom_eq_ok, Bool.not_eq_true]
  constructor
  · intro h
    obtain ⟨coll, hc, _, hm, hk, hp, h⟩ := h
    cases hfind : placement.keys.find? coll.shardSet.contains with
    | some q => simp [hfind, throw_eq_ok, bind_eq_ok] at h
    | none =>
      simp only [hfind, bind_eq_ok, pure_eq_ok, Prod.mk.injEq] at h
      obtain ⟨_, hcheck, table, hins, rfl, rfl⟩ := h
      exact ⟨coll, table, hc, hm, hk, hp, by simpa using hfind, hcheck, hins, rfl, rfl⟩
  · intro h
    obtain ⟨coll, table, hc, hm, hk, hp, hnew, hcheck, hins, rfl, rfl⟩ := h
    have hfind : placement.keys.find? coll.shardSet.contains = none := by simpa using hnew
    refine ⟨coll, hc, (), hm, hk, hp, ?_⟩
    simp only [hfind, bind_eq_ok, pure_eq_ok, Prod.mk.injEq]
    exact ⟨(), hcheck, table, hins, rfl, trivial⟩

/-- The shards of a group, of which there are none where there is no group. -/
def shardsUnder (coll : Collection) (key : Option ShardKey) : List ShardId :=
  match coll.groups.get? key with
  | some router => router.shards
  | none => []

theorem shardsUnder_of_router {key : Option ShardKey} {r : Router} (hr : coll.router key = .ok r) :
    shardsUnder coll key = r.shards := by
  rw [shardsUnder, (Collection.router_eq_ok.1 hr).2]

theorem deleteShardKey_eq_ok {key : ShardKey} : c.deleteShardKey name key = .ok (c', e) ↔
    ∃ coll c₁ e₁ coll₁ table removed, c.collections.get? name = some coll ∧
      coll.config.method = .custom ∧ coll.groups.contains (some key) = true ∧
      c.forceAborts (.shardKeyDeleted name key) = .ok (c₁, e₁) ∧
      c₁.collections.get? name = some coll₁ ∧
      removeShards c₁.replicas name (shardsUnder coll₁ (some key)) = .ok (table, removed) ∧
      c' = { c₁.setCollection name
          ({ coll₁ with groups := coll₁.groups.erase (some key) }.take (fun t =>
            (shardsUnder coll₁ (some key)).contains t.key.shard ||
              (shardsUnder coll₁ (some key)).contains t.key.toShard)).1 with
        replicas := table } ∧
      e = e₁ ++ Effects.cancelling name
          ({ coll₁ with groups := coll₁.groups.erase (some key) }.take (fun t =>
            (shardsUnder coll₁ (some key)).contains t.key.shard ||
              (shardsUnder coll₁ (some key)).contains t.key.toShard)).2 ++
        Effects.dropping name removed ++ { events := [.shardKeyDeleted name key] } := by
  simp only [deleteShardKey, bind_eq_ok, collection_eq_ok, throw_eq_ok, ite_eq_ok, false_and,
    exists_false, and_false, false_or, pure_eq_ok, Prod.mk.injEq, requireCustom_eq_ok]
  constructor
  · intro h
    obtain ⟨coll, hc, _, hm, hk, ⟨c₁, e₁⟩, habort, coll₁, hc₁, ⟨table, removed⟩, hrem, rfl, rfl⟩ := h
    exact ⟨coll, c₁, e₁, coll₁, table, removed, hc, hm, by simpa using hk, habort, hc₁, hrem, rfl, rfl⟩
  · intro h
    obtain ⟨coll, c₁, e₁, coll₁, table, removed, hc, hm, hk, habort, hc₁, hrem, rfl, rfl⟩ := h
    exact ⟨coll, hc, (), hm, by simpa using hk, (c₁, e₁), habort, coll₁, hc₁, (table, removed), hrem,
      rfl, rfl⟩

/-- Where an operation has nothing to move, its first stage is over at once. -/
theorem advance_starting {op : Operation} (hc : c.collections.get? name = some coll)
    (ho : c.operations.get? name = some { op with stage := .starting }) :
    Prod.fst <$> c.advance name .transfersFinished = .ok c' ↔ c' = { c with
      operations := c.operations.insert name { op with stage := .awaitingReadCommit } } := by
  rw [map_eq_ok]
  constructor
  · intro h
    obtain ⟨⟨c₁, key⟩, hadv, rfl⟩ := h
    obtain ⟨_, op', next, -, ho', hn, rfl, -⟩ := advance_eq_ok.1 hadv
    obtain rfl := Option.some.inj (ho.symm.trans ho')
    obtain rfl : some .awaitingReadCommit = next := by simpa [Stage.next] using hn
    rfl
  · rintro rfl
    exact ⟨(_, op.key), advance_eq_ok.2 ⟨coll, _, some .awaitingReadCommit, hc, ho, rfl, rfl, rfl⟩, rfl⟩

/-- An operation starts in its first stage, or past it where there is nothing to move. -/
theorem startResharding_eq_ok {plan : Plan} : c.startResharding plan = .ok (c', e) ↔
    c.operations.get? plan.operation.collection = none ∧
    c.peers.contains plan.operation.peer = true ∧ ∃ coll r r' table,
      c.collections.get? plan.operation.collection = some coll ∧ coll.transfers = [] ∧
      coll.router plan.operation.key = .ok r ∧ r.start plan.operation.change = .ok r' ∧
      claimReplicas c.replicas plan.operation plan.transfers = .ok table ∧
      c' = { c with
        epoch := c.epoch + 1
        collections := c.collections.insert plan.operation.collection
          { coll.setRouter plan.operation.key r' with
            transfers := plan.transfers.map (fun t => { t with epoch := c.epoch + 1 }) }
        replicas := table
        operations := c.operations.insert plan.operation.collection { plan.operation with
          stage := if plan.transfers = [] then .awaitingReadCommit else .starting } } ∧
      e = {
        spawn := ((plan.transfers.map (fun t => { t with epoch := c.epoch + 1 })).filter
          (·.status == .running)).map (copyOf plan.operation.collection r')
        started := [{ plan.operation with stage := .starting }] } := by
  simp only [startResharding, bind_eq_ok, collection_eq_ok, requireIdle_eq_ok, requirePeer_eq_ok,
    requireNoTransfer_eq_ok]
  constructor
  · intro h
    obtain ⟨-, hidle, -, -, -, hpeer, coll, hc, -, ht, r, hr, r', hr', table, hclaim, h⟩ := h
    refine ⟨hidle, hpeer, coll, r, r', table, hc, ht, hr, hr', hclaim, ?_⟩
    by_cases hnil : plan.transfers = []
    · simp only [hnil, ht, List.isEmpty_nil, if_true, bind_eq_ok, pure_eq_ok, Prod.mk.injEq] at h
      obtain ⟨c₁, hadv, rfl, rfl⟩ := h
      obtain rfl := (advance_starting (get?_insert_self _ _ _) (get?_insert_self _ _ _)).1 hadv
      simp [hnil, insert_insert]
    · have hne : plan.transfers.isEmpty = false := by simpa using hnil
      simp only [hne, ht, Bool.false_eq_true, if_false, bind_eq_ok, pure_eq_ok, Prod.mk.injEq] at h
      obtain ⟨_, rfl, rfl, rfl⟩ := h
      simp [hnil]
  · intro h
    obtain ⟨hidle, hpeer, coll, r, r', table, hc, ht, hr, hr', hclaim, rfl, rfl⟩ := h
    refine ⟨(), hidle, _, rfl, (), hpeer, coll, hc, (), ht, r, hr, r', hr', table, hclaim, ?_⟩
    by_cases hnil : plan.transfers = []
    · simp only [hnil, ht, List.isEmpty_nil, if_true, bind_eq_ok, pure_eq_ok, Prod.mk.injEq]
      refine ⟨_, (advance_starting (get?_insert_self _ _ _) (get?_insert_self _ _ _)).2 rfl, ?_⟩
      simp [insert_insert]
    · have hne : plan.transfers.isEmpty = false := by simpa using hnil
      simp [hne, hnil, ht, pure_eq_ok]

/-- The two commits of an operation, which differ in the action and in the ring that it moves. -/
def commit (c : Cluster) (name : String) (a : Action) (f : Router → Except Error Router) :
    Except Error (Cluster × Effects) := do
  let (c₁, key) ← c.advance name a
  let router ← f (← c₁.router name key)
  return (← c₁.setRouter name key router, {})

theorem commit_eq_ok {a : Action} {f : Router → Except Error Router} :
    c.commit name a f = .ok (c', e) ↔ ∃ coll op next r r', c.collections.get? name = some coll ∧
      c.operations.get? name = some op ∧ Stage.next true (some op.stage) a = .ok next ∧
      coll.router op.key = .ok r ∧ f r = .ok r' ∧
      c' = { c with
        collections := c.collections.insert name (coll.setRouter op.key r')
        operations := c.operations.insert name { op with stage := next.getD op.stage } } ∧ e = {} := by
  simp only [commit, bind_eq_ok, pure_eq_ok, Prod.mk.injEq]
  constructor
  · intro h
    obtain ⟨⟨c₁, key⟩, hadv, r, hr, r', hr', c₂, hset, rfl, rfl⟩ := h
    obtain ⟨coll, op, next, hc, ho, hn, rfl, rfl⟩ := advance_eq_ok.1 hadv
    obtain ⟨_, hc', hr⟩ := router_eq_ok.1 hr
    obtain rfl := Option.some.inj (hc.symm.trans hc')
    obtain ⟨_, hc', rfl⟩ := setRouter_eq_ok.1 hset
    obtain rfl := Option.some.inj (hc.symm.trans hc')
    exact ⟨coll, op, next, r, r', hc, ho, hn, hr, hr', rfl, rfl⟩
  · intro h
    obtain ⟨coll, op, next, r, r', hc, ho, hn, hr, hr', rfl, rfl⟩ := h
    exact ⟨(_, op.key), advance_eq_ok.2 ⟨coll, op, next, hc, ho, hn, rfl, rfl⟩, r,
      router_eq_ok.2 ⟨coll, hc, hr⟩, r', hr', _, setRouter_eq_ok.2 ⟨coll, hc, rfl⟩, rfl, rfl⟩

theorem abortResharding_eq_ok {forced : Bool} {reason : String} :
    c.abortResharding name forced reason = .ok (c', e) ↔
    ∃ coll next, c.collections.get? name = some coll ∧
      Stage.next true (c.stage? name) (.abort forced) = .ok next ∧
      c.rollBack name forced reason = .ok (c', e) := by
  simp only [abortResharding, bind_eq_ok, collection_eq_ok]
  constructor
  · intro h
    obtain ⟨coll, hc, next, hn, h⟩ := h
    exact ⟨coll, next, hc, hn, h⟩
  · intro h
    obtain ⟨coll, next, hc, hn, h⟩ := h
    exact ⟨coll, hc, next, hn, h⟩

theorem startTransfer_eq_ok {t : Transfer} : c.startTransfer name t = .ok (c', e) ↔
    ∃ coll table, c.collections.get? name = some coll ∧ c.operations.get? name = none ∧
      t.method = .wholeShard ∧ t.key.shard = t.key.toShard ∧ t.key.source ≠ t.key.target ∧
      c.peers.contains t.key.source = true ∧ c.peers.contains t.key.target = true ∧
      c.replicas.look name t.key.shard t.key.source = some .active ∧
      c.replicas.contains name t.key.shard t.key.target = false ∧
      t.key.checkAgainst coll.transfers = .ok () ∧
      c.replicas.insert name t.key.shard t.key.target .partialCopy = .ok table ∧
      c' = { c with
        epoch := c.epoch + 1
        replicas := table
        collections := c.collections.insert name { coll with
          transfers := coll.transfers ++ [{ t with status := .running, epoch := c.epoch + 1 }] } } ∧
      e = { spawn := [⟨name, t.key, c.epoch + 1, none⟩] } := by
  simp only [startTransfer, bind_eq_ok, collection_eq_ok, requireIdle_eq_ok, requirePeer_eq_ok,
    throw_eq_ok, ite_eq_ok, pure_eq_ok, Prod.mk.injEq, false_and, exists_false, and_false, false_or,
    ReplicaTable.state_eq_ok]
  constructor
  · intro h
    obtain ⟨coll, hc, _, hidle, hm, hq, _, hs, _, ht, state, hl, hst, hd, _, hk, table, hins, rfl,
      rfl⟩ := h
    obtain rfl : state = .active := by simpa using hst
    have hq : t.key.shard = t.key.toShard ∧ ¬t.key.source = t.key.target := by simpa using hq
    exact ⟨coll, table, hc, hidle, by simpa using hm, hq.1, hq.2, hs, ht, hl, by simpa using hd, hk, hins,
      rfl, rfl⟩
  · intro h
    obtain ⟨coll, table, hc, hidle, hm, hq, hne, hs, ht, hl, hd, hk, hins, rfl, rfl⟩ := h
    exact ⟨coll, hc, (), hidle, by simp [hm], by simp [hq, hne], (), hs, (), ht, .active, hl, by simp,
      by simp [hd], (), hk, table, hins, rfl, rfl⟩

theorem finishTransfer_eq_ok {key : TransferKey} {epoch : UInt64} :
    c.finishTransfer name key epoch = .ok (c', e) ↔
    ∃ coll t, c.collections.get? name = some coll ∧ coll.find key = .ok t ∧ t.epoch = epoch ∧
      t.status = .running ∧
      ((t.resharding = true ∧ ∃ e₁, c.finishSlice name
          { coll with transfers := coll.transfers.eraseP (·.key == key) } key = .ok (c', e₁) ∧
          e = e₁ ++ { completed := [(name, { t with status := .finished })] }) ∨
        (t.resharding = false ∧ ∃ table old,
          c.replicas.setState name key.toShard key.target .active = .ok (table, old) ∧
          c' = { c.setCollection name
              { coll with transfers := coll.transfers.eraseP (·.key == key) } with replicas := table } ∧
          e = { completed := [(name, { t with status := .finished })] })) := by
  simp only [finishTransfer, bind_eq_ok, collection_eq_ok, checkEpoch_eq_ok, throw_eq_ok, ite_eq_ok,
    false_and, exists_false, and_false, false_or, pure_eq_ok, Prod.mk.injEq, Bool.not_eq_true]
  constructor
  · intro h
    obtain ⟨coll, hc, t, hfind, _, hepoch, hrun, h⟩ := h
    refine ⟨coll, t, hc, hfind, hepoch, by simpa using hrun, ?_⟩
    obtain ⟨hm, ⟨c₁, e₁⟩, hslice, rfl, rfl⟩ | ⟨hm, ⟨table, old⟩, hset, rfl, rfl⟩ := h
    · exact .inl ⟨hm, e₁, hslice, rfl⟩
    · exact .inr ⟨hm, table, old, hset, rfl, rfl⟩
  · intro h
    obtain ⟨coll, t, hc, hfind, hepoch, hrun, h⟩ := h
    refine ⟨coll, hc, t, hfind, (), hepoch, by simpa using hrun, ?_⟩
    obtain ⟨hm, e₁, hslice, rfl⟩ | ⟨hm, table, old, hset, rfl, rfl⟩ := h
    · exact .inl ⟨hm, (c', e₁), hslice, rfl, rfl⟩
    · exact .inr ⟨hm, (table, old), hset, rfl, rfl⟩

theorem discardTransfer_eq_ok {key : TransferKey} : c.discardTransfer name coll key = .ok (c', e) ↔
    ∃ table old, c.replicas.remove name key.toShard key.target = .ok (table, old) ∧
      c' = { c.setCollection name (coll.take (·.key == key)).1 with replicas := table } ∧
      e = { cleanup := [.drop (key.targetLocation name)] } := by
  simp only [discardTransfer, bind_eq_ok, pure_eq_ok, Prod.mk.injEq, Prod.exists]
  refine exists_congr fun table => exists_congr fun old => and_congr_right fun _ => ?_
  exact and_congr eq_comm eq_comm

theorem failTransfer_eq_ok {key : TransferKey} {epoch : UInt64} {reason : String} :
    c.failTransfer name key epoch reason = .ok (c', e) ↔
    ∃ coll t e₁, c.collections.get? name = some coll ∧ coll.find key = .ok t ∧ t.epoch = epoch ∧
      ((t.resharding = true ∧ c.rollBack name true
          (Error.transferFailed (.reported key reason)).message = .ok (c', e₁) ∧
          e = { e₁ with cancel := e₁.cancel.filter (· != (name, key)) } ++
            { completed := [(name, { t with status := .failed })] }) ∨
        (t.resharding = false ∧ c.discardTransfer name coll key = .ok (c', e₁) ∧
          e = e₁ ++ { completed := [(name, { t with status := .failed })] })) := by
  simp only [failTransfer, bind_eq_ok, collection_eq_ok, checkEpoch_eq_ok, ite_eq_ok, pure_eq_ok,
    Prod.mk.injEq, Bool.not_eq_true]
  constructor
  · intro h
    obtain ⟨coll, hc, t, hfind, _, hepoch, h⟩ := h
    obtain ⟨hm, ⟨c₁, e₁⟩, hroll, rfl, rfl⟩ | ⟨hm, ⟨c₁, e₁⟩, hdiscard, rfl, rfl⟩ := h
    · exact ⟨coll, t, e₁, hc, hfind, hepoch, .inl ⟨hm, hroll, rfl⟩⟩
    · exact ⟨coll, t, e₁, hc, hfind, hepoch, .inr ⟨hm, hdiscard, rfl⟩⟩
  · intro h
    obtain ⟨coll, t, e₁, hc, hfind, hepoch, ⟨hm, hroll, rfl⟩ | ⟨hm, hdiscard, rfl⟩⟩ := h
    · exact ⟨coll, hc, t, hfind, (), hepoch, .inl ⟨hm, (c', e₁), hroll, rfl, rfl⟩⟩
    · exact ⟨coll, hc, t, hfind, (), hepoch, .inr ⟨hm, (c', e₁), hdiscard, rfl, rfl⟩⟩

theorem abortTransfer_eq_ok {key : TransferKey} : c.abortTransfer name key = .ok (c', e) ↔
    ∃ coll t e₁, c.collections.get? name = some coll ∧ coll.find key = .ok t ∧ t.resharding = false ∧
      c.discardTransfer name coll key = .ok (c', e₁) ∧ e = { cancel := [(name, key)] } ++ e₁ := by
  simp only [abortTransfer, bind_eq_ok, collection_eq_ok, throw_eq_ok, ite_eq_ok, false_and,
    exists_false, and_false, false_or, pure_eq_ok, Prod.mk.injEq, Bool.not_eq_true]
  constructor
  · intro h
    obtain ⟨coll, hc, t, hfind, hm, ⟨c₁, e₁⟩, hdiscard, rfl, rfl⟩ := h
    exact ⟨coll, t, e₁, hc, hfind, hm, hdiscard, rfl⟩
  · intro h
    obtain ⟨coll, t, e₁, hc, hfind, hm, hdiscard, rfl⟩ := h
    exact ⟨coll, hc, t, hfind, hm, (c', e₁), hdiscard, rfl, rfl⟩

theorem dropReplica_eq_ok {q : ShardId} : c.dropReplica name q peer = .ok (c', e) ↔
    c.requireUnused name q peer = .ok () ∧ ∃ l table old,
      c.replicas.shardReplicas name q = .ok l ∧ l.length ≠ 1 ∧
      c.replicas.remove name q peer = .ok (table, old) ∧
      c' = { c with replicas := table } ∧ e = { cleanup := [.drop ⟨name, peer, q⟩] } := by
  simp only [dropReplica, bind_eq_ok, throw_eq_ok, ite_eq_ok, false_and, exists_false, and_false,
    false_or, pure_eq_ok, Prod.mk.injEq]
  constructor
  · intro h
    obtain ⟨_, hu, l, hl, hlen, ⟨table, old⟩, hrem, rfl, rfl⟩ := h
    exact ⟨hu, l, table, old, hl, hlen, hrem, rfl, rfl⟩
  · intro h
    obtain ⟨hu, l, table, old, hl, hlen, hrem, rfl, rfl⟩ := h
    exact ⟨(), hu, l, hl, hlen, (table, old), hrem, rfl, rfl⟩

theorem setReplicaState_eq_ok {q : ShardId} {state : ReplicaState} :
    c.setReplicaState name q peer state = .ok (c', e) ↔
    state ≠ .resharding ∧ c.requireUnused name q peer = .ok () ∧ ∃ current table old,
      c.replicas.look name q peer = some current ∧ current ≠ .resharding ∧
      c.replicas.setState name q peer state = .ok (table, old) ∧
      c' = { c with replicas := table } ∧ e = {} := by
  simp only [setReplicaState, bind_eq_ok, throw_eq_ok, ite_eq_ok, false_and, exists_false, and_false,
    false_or, pure_eq_ok, Prod.mk.injEq, ReplicaTable.state_eq_ok, not_or]
  constructor
  · intro h
    obtain ⟨current, hl, ⟨hstate, hne⟩, _, hu, ⟨table, old⟩, hset, rfl, rfl⟩ := h
    exact ⟨hstate, hu, current, table, old, hl, hne, hset, rfl, rfl⟩
  · intro h
    obtain ⟨hstate, hu, current, table, old, hl, hne, hset, rfl, rfl⟩ := h
    exact ⟨current, hl, ⟨hstate, hne⟩, (), hu, (table, old), hset, rfl, rfl⟩

end ShardCluster.Cluster
