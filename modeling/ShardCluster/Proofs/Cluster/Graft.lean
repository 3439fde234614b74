import ShardCluster.Cluster.Apply
import ShardCluster.Proofs.Cluster.ForcedAborts
/-! One collection of a cluster in the place of the same one of another. An entry on it cannot tell
where it stands. -/
namespace ShardCluster

namespace SortedMap
universe u v
variable {κ : Type u} {α : Type v} [Ord κ] [Std.TransOrd κ] [Std.LawfulEqOrd κ]
  (m : SortedMap κ α) (k : κ) (x : Option α)

/-- Set what is under a key, if anything. -/
def put : Option α → SortedMap κ α
  | some a => m.insert k a
  | none => m.erase k

theorem get?_put [DecidableEq κ] (k' : κ) : (m.put k x).get? k' = if k' = k then x else m.get? k' := by
  cases x with
  | none => exact get?_erase m k k'
  | some a => exact get?_insert m k k' a

@[simp] theorem get?_put_self : (m.put k x).get? k = x := by
  cases x with
  | none => exact get?_erase_self m k
  | some a => exact get?_insert_self m k a

theorem get?_put_of_ne {k' : κ} (h : k' ≠ k) : (m.put k x).get? k' = m.get? k' := by
  cases x with
  | none => exact get?_erase_of_ne h m
  | some a => exact get?_insert_of_ne h m a

@[simp] theorem put_insert (a : α) : (m.put k x).insert k a = m.put k (some a) := by
  refine ext_get? fun k' => ?_
  by_cases h : k' = k
  · rw [h, get?_insert_self, get?_put_self]
  · rw [get?_insert_of_ne h, get?_put_of_ne _ _ _ h, get?_put_of_ne _ _ _ h]

@[simp] theorem put_erase : (m.put k x).erase k = m.put k none := by
  refine ext_get? fun k' => ?_
  by_cases h : k' = k
  · rw [h, get?_erase_self, get?_put_self]
  · rw [get?_erase_of_ne h, get?_put_of_ne _ _ _ h, get?_put_of_ne _ _ _ h]

theorem put_get? {n : SortedMap κ α} (h : n.get? k = m.get? k) : m.put k (n.get? k) = m := by
  refine ext_get? fun k' => ?_
  by_cases hk : k' = k
  · rw [hk, get?_put_self, h]
  · rw [get?_put_of_ne _ _ _ hk]

/-- What differs under one key here, and under another key there, is put together in either order. -/
theorem put_comm {m₁ m₂ : SortedMap κ α} {k' : κ} (hk : k' ≠ k)
    (h₁ : ∀ n, n ≠ k → m₁.get? n = m.get? n) (h₂ : ∀ n, n ≠ k' → m₂.get? n = m.get? n) :
    m₁.put k' (m₂.get? k') = m₂.put k (m₁.get? k) := by
  refine ext_get? fun n => ?_
  by_cases hn : n = k
  · rw [hn, get?_put_of_ne _ _ _ hk.symm, get?_put_self]
  · rw [get?_put_of_ne _ _ _ hn]
    by_cases hn' : n = k'
    · rw [hn', get?_put_self]
    · rw [get?_put_of_ne _ _ _ hn', h₁ n hn, h₂ n hn']

end SortedMap

section
universe u v w
variable {ε : Type u} {α β γ : Type v}

theorem map_throw (f : α → β) (e : ε) : f <$> (throw e : Except ε α) = throw e := rfl

/-- What goes on in the same way after each first step is the same in the whole. -/
theorem bind_map_of_ok {x : Except ε α} {f : α → Except ε β} {f' : α → Except ε γ} {g : γ → β}
    (h : ∀ a, x = .ok a → f a = g <$> f' a) : (x >>= f) = g <$> (x >>= f') := by
  cases x with
  | error e => rfl
  | ok a => exact h a rfl

theorem bind_map_congr {x : Except ε α} {f : α → Except ε β} {f' : α → Except ε γ} {g : γ → β}
    (h : ∀ a, f a = g <$> f' a) : (x >>= f) = g <$> (x >>= f') :=
  bind_map_of_ok fun a _ => h a

theorem ite_map_congr {p : Prop} [Decidable p] {x y : Except ε β} {x' y' : Except ε γ} {g : γ → β}
    (hx : p → x = g <$> x') (hy : ¬p → y = g <$> y') :
    (if p then x else y) = g <$> (if p then x' else y') := by
  by_cases hp : p
  · rw [if_pos hp, if_pos hp, hx hp]
  · rw [if_neg hp, if_neg hp, hy hp]

/-- A check that both make. -/
theorem guard_map_congr {p : Prop} [Decidable p] {e : ε} {k : α → Except ε β} {k' : α → Except ε γ}
    {x : Except ε β} {y : Except ε γ} {g : γ → β} (h : x = g <$> y) :
    (if p then throw e >>= k else x) = g <$> (if p then throw e >>= k' else y) :=
  ite_map_congr (fun _ => rfl) fun _ => h

/-- A change of the state that every step commutes with, the whole fold commutes with. -/
theorem foldlM_map {α : Type w} (f : β → α → Except ε β) (g : β → β)
    (h : ∀ b a, f (g b) a = g <$> f b a) (l : List α) (b : β) :
    l.foldlM f (g b) = g <$> l.foldlM f b := by
  induction l generalizing b with
  | nil => rfl
  | cons a rest ih => simp only [List.foldlM_cons, h, bind_map_left, map_bind, ih]

end

namespace ReplicaTable
variable (t b : ReplicaTable) (name : String)

/-- The replicas of one collection, in the place of those that `b` has of it. -/
def grafted : ReplicaTable := ⟨b.home, b.collections.put name (t.collections.get? name)⟩

@[simp] theorem grafted_get? : (t.grafted b name).collections.get? name = t.collections.get? name :=
  SortedMap.get?_put_self _ _ _

@[simp] theorem shardsOf_grafted : (t.grafted b name).shardsOf name = t.shardsOf name := by
  simp [shardsOf]

@[simp] theorem replicas_grafted : (t.grafted b name).replicas name = t.replicas name := by
  simp [replicas]

@[simp] theorem shardReplicas_grafted (q : ShardId) :
    (t.grafted b name).shardReplicas name q = t.shardReplicas name q := by
  simp [shardReplicas]

@[simp] theorem state_grafted (q : ShardId) (p : PeerId) :
    (t.grafted b name).state name q p = t.state name q p := by
  simp [state]

@[simp] theorem contains_grafted (q : ShardId) (p : PeerId) :
    (t.grafted b name).contains name q p = t.contains name q p := by
  simp [contains]

@[simp] theorem putShards_grafted (shards : CollectionReplicas) :
    (t.grafted b name).putShards name shards = (t.putShards name shards).grafted b name := by
  simp [putShards, grafted]

theorem register_grafted : (t.grafted b name).register name = (t.register name).grafted b name := by
  have hknown : (t.grafted b name).collections.contains name = t.collections.contains name := by
    simp [SortedMap.contains]
  by_cases h : t.collections.contains name = true
  · rw [register, if_pos (hknown.trans h), register, if_pos h]
  · rw [register, if_neg (hknown ▸ h), register, if_neg h]
    simp [grafted]

theorem insert_grafted (q : ShardId) (p : PeerId) (s : ReplicaState) :
    (t.grafted b name).insert name q p s = (·.grafted b name) <$> t.insert name q p s := by
  simp [insert]

theorem setState_grafted (q : ShardId) (p : PeerId) (s : ReplicaState) :
    (t.grafted b name).setState name q p s = (·.map (·.grafted b name) id) <$> t.setState name q p s := by
  simp [setState]

theorem remove_grafted (q : ShardId) (p : PeerId) :
    (t.grafted b name).remove name q p = (·.map (·.grafted b name) id) <$> t.remove name q p := by
  simp [remove]

theorem removeShard_grafted (q : ShardId) :
    (t.grafted b name).removeShard name q = (·.map (·.grafted b name) id) <$> t.removeShard name q := by
  simp [removeShard]

theorem removeCollection_grafted : (t.grafted b name).removeCollection name =
    (t.removeCollection name).map (·.grafted b name) id := by
  unfold removeCollection
  rw [grafted_get?]
  cases t.collections.get? name with
  | none => rfl
  | some shards => simp [grafted]

end ReplicaTable

namespace Cluster
variable (c b : Cluster) (name : String) (n : UInt64)

/-- One collection of `c`, in the place of the same one of `b`. The peers come with it. -/
def grafted : Cluster where
  peers := c.peers
  collections := b.collections.put name (c.collections.get? name)
  replicas := c.replicas.grafted b.replicas name
  operations := b.operations.put name (c.operations.get? name)
  epoch := n
  ringPositions := c.ringPositions

@[simp] theorem grafted_peers : (c.grafted b name n).peers = c.peers := rfl
@[simp] theorem grafted_ringPositions : (c.grafted b name n).ringPositions = c.ringPositions := rfl
@[simp] theorem grafted_epoch : (c.grafted b name n).epoch = n := rfl
@[simp] theorem grafted_replicas : (c.grafted b name n).replicas = c.replicas.grafted b.replicas name := rfl

@[simp] theorem grafted_collections :
    (c.grafted b name n).collections.get? name = c.collections.get? name :=
  SortedMap.get?_put_self _ _ _

@[simp] theorem grafted_operation? : (c.grafted b name n).operation? name = c.operation? name :=
  SortedMap.get?_put_self _ _ _

@[simp] theorem grafted_stage? : (c.grafted b name n).stage? name = c.stage? name := by simp [stage?]

@[simp] theorem grafted_collection : (c.grafted b name n).collection name = c.collection name := by
  simp [collection]

@[simp] theorem grafted_transfers : (c.grafted b name n).transfers name = c.transfers name := by
  simp [transfers]

@[simp] theorem grafted_router (key : Option ShardKey) :
    (c.grafted b name n).router name key = c.router name key := by simp [router]

@[simp] theorem grafted_requirePeer (p : PeerId) :
    (c.grafted b name n).requirePeer p = c.requirePeer p := rfl

@[simp] theorem grafted_requireIdle : (c.grafted b name n).requireIdle name = c.requireIdle name := by
  simp [requireIdle]

@[simp] theorem grafted_requireUnused (q : ShardId) (p : PeerId) :
    (c.grafted b name n).requireUnused name q p = c.requireUnused name q p := by
  simp [requireUnused]

@[simp] theorem grafted_checkPlacement (l : List (ShardId × List PeerId)) :
    (c.grafted b name n).checkPlacement l = c.checkPlacement l := by
  induction l with
  | nil => rfl
  | cons e rest ih => simp [checkPlacement, ih]

@[simp] theorem setCollection_grafted (coll : Collection) :
    (c.grafted b name n).setCollection name coll = (c.setCollection name coll).grafted b name n := by
  simp [setCollection, grafted]

theorem setRouter_grafted (key : Option ShardKey) (r : Router) :
    (c.grafted b name n).setRouter name key r = (·.grafted b name n) <$> c.setRouter name key r := by
  simp [setRouter]

theorem advance_grafted (a : Action) : (c.grafted b name n).advance name a =
    (·.map (·.grafted b name n) id) <$> c.advance name a := by
  simp only [advance, grafted_collection, grafted_stage?, grafted_operation?]
  cases c.operation? name with
  | none => simp [map_throw]
  | some op => simp [grafted]

theorem commitRead_grafted : (c.grafted b name n).commitRead name =
    (·.map (·.grafted b name n) id) <$> c.commitRead name := by
  simp [commitRead, advance_grafted, setRouter_grafted]

theorem commitWrite_grafted : (c.grafted b name n).commitWrite name =
    (·.map (·.grafted b name n) id) <$> c.commitWrite name := by
  simp [commitWrite, advance_grafted, setRouter_grafted]

theorem settleReplicas_grafted (t b : ReplicaTable) (name : String) (shards : List ShardId) :
    settleReplicas (t.grafted b name) name shards =
      (·.map (·.grafted b name) id) <$> settleReplicas t name shards := by
  have hfold := fun l => foldlM_map
    (fun (t : ReplicaTable) (r : Replica) => Prod.fst <$> t.setState name r.shard r.peer .active)
    (·.grafted b name) (fun t r => by simp [ReplicaTable.setState_grafted]) l t
  simp [settleReplicas, hfold]

theorem replicasOf_grafted (t b : ReplicaTable) (name : String) (shards : List ShardId) :
    replicasOf (t.grafted b name) name shards = replicasOf t name shards := by
  induction shards with
  | nil => rfl
  | cons q rest ih => simp [replicasOf, ih]

theorem finishResharding_grafted : (c.grafted b name n).finishResharding name =
    (·.map (·.grafted b name n) id) <$> c.finishResharding name := by
  simp only [finishResharding, advance_grafted, bind_map_left, map_bind]
  refine bind_congr fun x => ?_
  obtain ⟨c, key⟩ := x
  simp only [Prod.map_apply, grafted_operation?]
  cases c.operation? name with
  | none => rfl
  | some op =>
    simp only [grafted_router, grafted_replicas, settleReplicas_grafted, setRouter, collection,
      grafted_collections, map_bind, bind_map_left, bind_assoc, pure_bind]
    refine bind_congr fun r => bind_congr fun after => bind_congr fun x => bind_congr fun coll => ?_
    cases op.direction with
    | up =>
      simp only [Prod.map_fst, replicasOf_grafted, map_bind]
      exact bind_congr fun sources => by simp [setCollection, grafted]
    | down =>
      simp only [Prod.map_fst, ReplicaTable.removeShard_grafted, map_bind, bind_map_left]
      exact bind_congr fun y => by simp [setCollection, grafted]

theorem rollBack_grafted (forced : Bool) (reason : String) :
    (c.grafted b name n).rollBack name forced reason =
    (·.map (·.grafted b name n) id) <$> c.rollBack name forced reason := by
  unfold rollBack
  rw [grafted_operation?]
  cases c.operation? name with
  | none => rfl
  | some op =>
    simp only [grafted_collection, grafted_replicas, map_bind]
    refine bind_congr fun coll => bind_congr fun r => ?_
    cases op.direction with
    | up =>
      simp only [ReplicaTable.removeShard_grafted, bind_map_left, map_bind, pure_bind]
      exact bind_congr fun x => by simp [grafted]
    | down =>
      simp only [settleReplicas_grafted, bind_map_left, map_bind, pure_bind]
      exact bind_congr fun x => by simp [grafted]

theorem abortResharding_grafted (forced : Bool) (reason : String) :
    (c.grafted b name n).abortResharding name forced reason =
    (·.map (·.grafted b name n) id) <$> c.abortResharding name forced reason := by
  simp [abortResharding, rollBack_grafted]

theorem finishSlice_grafted (coll : Collection) (key : TransferKey) :
    (c.grafted b name n).finishSlice name coll key =
    (·.map (·.grafted b name n) id) <$> c.finishSlice name coll key := by
  unfold finishSlice
  obtain ⟨transfers, next⟩ := release key.destination coll.transfers
  simp only [grafted_operation?, setCollection_grafted, grafted_stage?, advance_grafted]
  have hend : ∀ {p : Prop} [Decidable p] (c' : Cluster) (spawn : List CopyRequest),
      (if p then
        Prod.fst <$> (·.map (·.grafted b name n) id) <$> c'.advance name .transfersFinished >>=
          fun c => pure (c, ({ spawn } : Effects))
      else pure (c'.grafted b name n) >>= fun c => pure (c, { spawn })) =
      (·.map (·.grafted b name n) id) <$> (if p then
        Prod.fst <$> c'.advance name .transfersFinished >>= fun c => pure (c, ({ spawn } : Effects))
      else pure c' >>= fun c => pure (c, { spawn })) :=
    fun c' spawn => ite_map_congr (fun _ => by simp) fun _ => rfl
  cases next with
  | none => exact bind_map_congr fun spawn => hend _ spawn
  | some t => exact bind_map_congr fun r => bind_map_congr fun spawn => hend _ spawn

theorem finishTransfer_grafted (key : TransferKey) (epoch : UInt64) :
    (c.grafted b name n).finishTransfer name key epoch =
    (·.map (·.grafted b name n) id) <$> c.finishTransfer name key epoch := by
  simp only [finishTransfer, grafted_collection, finishSlice_grafted, setCollection_grafted,
    grafted_replicas, ReplicaTable.setState_grafted]
  refine bind_map_congr fun coll => bind_map_congr fun t => bind_map_congr fun _ =>
    guard_map_congr ?_
  by_cases hm : t.resharding = true
  · simp [hm]
  · simp only [hm, bind_map_left]
    exact bind_map_congr fun x => by simp [grafted]

theorem discardTransfer_grafted (coll : Collection) (key : TransferKey) :
    (c.grafted b name n).discardTransfer name coll key =
    (·.map (·.grafted b name n) id) <$> c.discardTransfer name coll key := by
  simp only [discardTransfer, grafted_replicas, ReplicaTable.remove_grafted, bind_map_left, map_bind]
  exact bind_congr fun x => by simp [setCollection, grafted]

theorem failTransfer_grafted (key : TransferKey) (epoch : UInt64) (reason : String) :
    (c.grafted b name n).failTransfer name key epoch reason =
    (·.map (·.grafted b name n) id) <$> c.failTransfer name key epoch reason := by
  simp only [failTransfer, grafted_collection, map_bind]
  refine bind_congr fun coll => bind_congr fun t => bind_congr fun _ => ?_
  by_cases hm : t.resharding = true
  · simp [hm, rollBack_grafted]
  · simp [hm, discardTransfer_grafted]

theorem abortTransfer_grafted (key : TransferKey) : (c.grafted b name n).abortTransfer name key =
    (·.map (·.grafted b name n) id) <$> c.abortTransfer name key := by
  simp only [abortTransfer, grafted_collection, discardTransfer_grafted, bind_map_left]
  exact bind_map_congr fun coll => bind_map_congr fun t => guard_map_congr (bind_map_congr fun x => rfl)

theorem dropReplica_grafted (q : ShardId) (p : PeerId) : (c.grafted b name n).dropReplica name q p =
    (·.map (·.grafted b name n) id) <$> c.dropReplica name q p := by
  simp only [dropReplica, grafted_requireUnused, grafted_replicas, ReplicaTable.shardReplicas_grafted,
    ReplicaTable.remove_grafted, bind_map_left]
  exact bind_map_congr fun _ => bind_map_congr fun here => guard_map_congr (bind_map_congr fun x => rfl)

theorem setReplicaState_grafted (q : ShardId) (p : PeerId) (s : ReplicaState) :
    (c.grafted b name n).setReplicaState name q p s =
    (·.map (·.grafted b name n) id) <$> c.setReplicaState name q p s := by
  simp only [setReplicaState, grafted_requireUnused, grafted_replicas, ReplicaTable.state_grafted,
    ReplicaTable.setState_grafted, bind_map_left]
  exact bind_map_congr fun old => guard_map_congr (bind_map_congr fun _ => bind_map_congr fun x => rfl)

theorem insertPlacement_grafted (t b : ReplicaTable) (name : String) (placement : Placement) :
    insertPlacement (t.grafted b name) name placement =
      (·.grafted b name) <$> insertPlacement t name placement := by
  exact foldlM_map
    (fun t (e : ShardId × List PeerId) => e.2.foldlM (fun t p => t.insert name e.1 p .active) t) _
    (fun t e => foldlM_map (fun t p => t.insert name e.1 p .active) _
      (fun t p => t.insert_grafted b name e.1 p .active) e.2 t) placement.entries t

theorem createCollection_grafted (config : CollectionConfig) (placement : Placement) :
    (c.grafted b name n).createCollection name config placement =
    (·.map (·.grafted b name n) id) <$> c.createCollection name config placement := by
  have hknown : (c.grafted b name n).collections.contains name = c.collections.contains name := by
    simp [SortedMap.contains]
  have hend : ∀ groups, (do
      c.checkPlacement placement.entries
      let replicas ← insertPlacement ((c.replicas.grafted b.replicas name).register name) name placement
      pure ({ (c.grafted b name n) with
        replicas
        collections := (c.grafted b name n).collections.insert name { config, groups } },
        ({} : Effects))) =
      (·.map (·.grafted b name n) id) <$> (do
      c.checkPlacement placement.entries
      let replicas ← insertPlacement (c.replicas.register name) name placement
      pure ({ c with replicas, collections := c.collections.insert name { config, groups } },
        ({} : Effects))) := by
    intro groups
    rw [ReplicaTable.register_grafted, insertPlacement_grafted, bind_map_left]
    exact bind_map_congr fun _ => bind_map_congr fun t => by simp [grafted]
  simp only [createCollection, hknown, grafted_checkPlacement, grafted_replicas, grafted_ringPositions]
  refine guard_map_congr (guard_map_congr ?_)
  cases config.method with
  | auto => exact guard_map_congr (bind_map_congr fun groups => hend groups)
  | custom => exact ite_map_congr (fun _ => bind_map_congr fun groups => hend groups) fun _ => rfl

theorem createShardKey_grafted (key : ShardKey) (placement : Placement) :
    (c.grafted b name n).createShardKey name key placement =
    (·.map (·.grafted b name n) id) <$> c.createShardKey name key placement := by
  simp only [createShardKey, grafted_collection, grafted_checkPlacement, grafted_replicas,
    grafted_ringPositions, insertPlacement_grafted, bind_map_left]
  refine bind_map_congr fun coll => bind_map_congr fun _ => guard_map_congr (guard_map_congr ?_)
  cases placement.keys.find? coll.shardSet.contains with
  | some q => rfl
  | none => exact bind_map_congr fun _ => bind_map_congr fun t => by simp [setCollection, grafted]

theorem removeShards_grafted (t b : ReplicaTable) (name : String) (shards : List ShardId) :
    removeShards (t.grafted b name) name shards =
      (·.map (·.grafted b name) id) <$> removeShards t name shards := by
  induction shards generalizing t with
  | nil => rfl
  | cons q rest ih =>
    simp only [removeShards, ReplicaTable.removeShard_grafted, bind_map_left, Prod.map_fst, ih]
    exact bind_map_congr fun x => bind_map_congr fun y => rfl

theorem rollBackAll_grafted (reason : String) {names : List String} (hn : ∀ x ∈ names, x = name) :
    (c.grafted b name n).rollBackAll reason names =
    (·.map (·.grafted b name n) id) <$> c.rollBackAll reason names := by
  induction names generalizing c with
  | nil => rfl
  | cons x rest ih =>
    obtain ⟨rfl, hrest⟩ := List.forall_mem_cons.1 hn
    simp only [rollBackAll, rollBack_grafted, bind_map_left, Prod.map_fst, ih _ hrest]
    exact bind_map_congr fun x => bind_map_congr fun y => rfl

theorem forceAborts_grafted (hs : c.Sound) {event : TopologyEvent} (he : event.collection? = some name) :
    (c.grafted b name n).forceAborts event =
    (·.map (·.grafted b name n) id) <$> c.forceAborts event := by
  have hsame : (c.grafted b name n).affected event = c.affected event := by
    cases event with
    | collectionDeleted =>
      cases he
      simp [affected]
    | shardKeyDeleted =>
      cases he
      simp [affected]
    | peerRemoved => cases he
  have honly : ∀ x ∈ c.affected event, x = name := by
    obtain ha | ha := affected_own hs he <;> simp [ha]
  rw [forceAborts, hsame]
  exact rollBackAll_grafted c b name n _ honly

theorem deleteCollection_grafted (hs : c.Sound) :
    (c.grafted b name n).deleteCollection name =
    (·.map (·.grafted b name n) id) <$> c.deleteCollection name := by
  have he : (TopologyEvent.collectionDeleted name).collection? = some name := rfl
  simp only [deleteCollection, grafted_collection, forceAborts_grafted c b name n hs he, bind_map_left,
    Prod.map_fst, grafted_replicas, ReplicaTable.removeCollection_grafted, grafted_transfers]
  exact bind_map_congr fun _ => bind_map_congr fun x => by simp [grafted]

theorem deleteShardKey_grafted (hs : c.Sound) (key : ShardKey) :
    (c.grafted b name n).deleteShardKey name key =
    (·.map (·.grafted b name n) id) <$> c.deleteShardKey name key := by
  have he : (TopologyEvent.shardKeyDeleted name key).collection? = some name := rfl
  simp only [deleteShardKey, grafted_collection, forceAborts_grafted c b name n hs he, bind_map_left,
    Prod.map_fst, grafted_replicas, removeShards_grafted]
  exact bind_map_congr fun _ => bind_map_congr fun _ => guard_map_congr <| bind_map_congr fun x =>
    bind_map_congr fun coll => bind_map_congr fun y => by simp [setCollection, grafted]

end Cluster
end ShardCluster
