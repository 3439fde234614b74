import ShardCluster.Proofs.Cluster.ForcedAborts
import ShardCluster.Proofs.Cluster.Forward
import ShardCluster.Proofs.Cluster.Groups
/-! Defects of a cluster are never met. The operation table, the groups and the rings of the groups
stay in step, so that no entry and no plan ever comes upon a state that the rules exclude. -/
namespace ShardCluster
open SortedMap

/-- A computation that may fail, but not for a state that the rules exclude. -/
def Sane {α : Type} (x : Except Error α) : Prop := ∀ why, x ≠ .error (.internal why)

namespace Sane
variable {α β : Type}

@[simp] theorem ok (a : α) : Sane (.ok a) := nofun

@[simp] theorem pure (a : α) : Sane (Pure.pure a : Except Error α) := nofun

@[simp] theorem error_iff {e : Error} : Sane (.error e : Except Error α) ↔ ∀ why, e ≠ .internal why := by
  simp [Sane]

@[simp] theorem throw_iff {e : Error} : Sane (throw e : Except Error α) ↔ ∀ why, e ≠ .internal why :=
  error_iff

theorem of_ok {x : Except Error α} (h : ∃ a, x = .ok a) : Sane x := by
  obtain ⟨a, rfl⟩ := h
  exact ok a

theorem bind {x : Except Error α} {f : α → Except Error β} (hx : Sane x)
    (hf : ∀ a, x = .ok a → Sane (f a)) : Sane (x >>= f) := by
  cases x with
  | ok a => exact hf a rfl
  | error e => exact error_iff.2 (error_iff.1 hx)

theorem map {x : Except Error α} {f : α → β} (hx : Sane x) : Sane (f <$> x) := by
  cases x with
  | ok a => exact ok (f a)
  | error e => exact error_iff.2 (error_iff.1 hx)

theorem ite {p : Prop} [Decidable p] {x y : Except Error α} (hx : p → Sane x) (hy : ¬p → Sane y) :
    Sane (if p then x else y) := by
  by_cases hp : p
  · rw [if_pos hp]
    exact hx hp
  · rw [if_neg hp]
    exact hy hp

/-- A check that stands before the rest. -/
theorem guard {p : Prop} [Decidable p] {e : Error} {f : α → Except Error β} {x : Except Error β}
    (he : ∀ why, e ≠ .internal why) (hx : ¬p → Sane x) : Sane (if p then throw e >>= f else x) :=
  ite (fun _ => (throw_iff.2 he).bind fun _ ha => by simp [throw_eq_ok] at ha) hx

theorem foldlM {f : β → α → Except Error β} {l : List α} (hf : ∀ b a, Sane (f b a)) (b : β) :
    Sane (l.foldlM f b) := by
  induction l generalizing b with
  | nil => exact pure b
  | cons a rest ih =>
    rw [List.foldlM_cons]
    exact (hf b a).bind fun b' _ => ih b'

end Sane

theorem Stage.next_sane (allowAbort : Bool) (s : Option Stage) (a : Action) :
    Sane (Stage.next allowAbort s a) := by
  cases s with
  | none => cases a <;> simp [Stage.next]
  | some s =>
    cases a with
    | abort forced =>
      rw [Stage.next]
      exact .ite (fun _ => by simp) fun _ => .ok _
    | _ => cases s <;> simp [Stage.next]

namespace ReplicaTable
variable (t : ReplicaTable) (name : String) (q : ShardId) (p : PeerId) (s : ReplicaState)

theorem shardsOf_sane : Sane (t.shardsOf name) := by
  unfold shardsOf
  split <;> simp

theorem shardReplicas_sane : Sane (t.shardReplicas name q) :=
  (t.shardsOf_sane name).bind fun _ _ => by split <;> simp

theorem state_sane : Sane (t.state name q p) :=
  (t.shardsOf_sane name).bind fun _ _ => by split <;> simp

theorem insert_sane : Sane (t.insert name q p s) := (t.shardsOf_sane name).bind fun _ _ => .pure _

theorem setState_sane : Sane (t.setState name q p s) :=
  (t.state_sane name q p).bind fun _ _ => (t.shardsOf_sane name).bind fun _ _ => .pure _

theorem remove_sane : Sane (t.remove name q p) :=
  (t.state_sane name q p).bind fun _ _ => (t.shardsOf_sane name).bind fun _ _ => .pure _

theorem removeShard_sane : Sane (t.removeShard name q) := (t.shardsOf_sane name).bind fun _ _ => .pure _

end ReplicaTable

theorem TransferKey.checkAgainst_sane (key : TransferKey) (transfers : List Transfer) :
    Sane (key.checkAgainst transfers) := by
  induction transfers with
  | nil => exact .ok ()
  | cons t rest ih =>
    rw [checkAgainst]
    exact .ite (fun _ => by simp) fun _ => .ite (fun _ => by simp) fun _ => ih

namespace Collection
variable {coll : Collection}

theorem find_sane (key : TransferKey) : Sane (coll.find key) := by
  unfold Collection.find
  split <;> simp

/-- An auto-sharded collection has its group. -/
def Grouped (coll : Collection) : Prop :=
  coll.config.method = .auto → coll.groups.contains none = true

theorem router_sane (h : coll.Grouped) (key : Option ShardKey) : Sane (coll.router key) := by
  have hcheck : Sane (coll.checkKey key) := by
    unfold checkKey
    split <;> simp
  refine hcheck.bind fun _ hk => ?_
  cases hg : coll.groups.get? key with
  | some r => exact .pure r
  | none =>
    cases key with
    | some k => simp
    | none =>
      -- without a key only an auto-sharded collection is asked
      cases hm : coll.config.method with
      | auto => simpa [SortedMap.contains, hg] using h hm
      | custom => simp [checkKey, hm] at hk

/-- To run out of numbers is no defect. -/
theorem nextShard_sane (coll : Collection) : Sane coll.nextShard := by
  unfold nextShard
  cases coll.shardSet.last? with
  | some last => exact .ite (fun _ => .ok _) fun _ => by simp
  | none => exact .ok 0

end Collection

theorem Face.Keyed.grouped {coll : Collection} {op : Option Operation} {l : Layout}
    (h : Keyed ⟨some coll, op, l⟩) : coll.Grouped :=
  fun hm => (h.auto coll rfl hm none).2 rfl

namespace Router
variable {r : Router}

theorem changed_sane (ring : Ring) (change : RingChange) : Sane (changed ring change) := by
  cases change with
  | add q => exact .ite (fun _ => by simp) fun _ => .ok _
  | remove q => exact .ite (fun _ => by simp) fun _ => .ite (fun _ => by simp) fun _ => .ok _

theorem start_sane (hr : r.resharding = false) (change : RingChange) : Sane (r.start change) := by
  unfold start
  rw [hr]
  exact (changed_sane _ _).bind fun _ _ => .pure _

end Router

namespace Cluster
variable {c c' : Cluster} {name : String} {coll : Collection}

theorem collection_sane (c : Cluster) (name : String) : Sane (c.collection name) := by
  unfold Cluster.collection
  split <;> simp

theorem requirePeer_sane (c : Cluster) (p : PeerId) : Sane (c.requirePeer p) :=
  .ite (fun _ => .ok ()) fun _ => by simp

theorem requireIdle_sane (c : Cluster) (name : String) : Sane (c.requireIdle name) := by
  unfold Cluster.requireIdle
  split <;> simp

theorem requireNoTransfer_sane (name : String) (coll : Collection) :
    Sane (requireNoTransfer name coll) := by
  unfold requireNoTransfer
  split <;> simp

/-- Only a start goes on from a collection without an operation. -/
theorem advance_sane (c : Cluster) (name : String) {a : Action} (ha : a ≠ .start) :
    Sane (c.advance name a) := by
  refine (c.collection_sane name).bind fun _ _ => (Stage.next_sane _ _ _).bind fun next hn => ?_
  cases ho : c.operation? name with
  | some op => exact .pure _
  | none =>
    rw [stage?, ho] at hn
    cases a <;> simp [Stage.next] at ha hn

theorem claimReplicas_sane (t : ReplicaTable) (op : Operation) (transfers : List Transfer) :
    Sane (claimReplicas t op transfers) := by
  unfold claimReplicas
  cases op.direction with
  | up => exact t.insert_sane _ _ _ _
  | down => exact .foldlM (fun t _ => (t.setState_sane _ _ _ _).bind fun _ _ => .pure _) t

theorem removeReplicas_sane (t : ReplicaTable) (l : List (String × ShardId × PeerId)) :
    Sane (removeReplicas t l) := by
  induction l generalizing t with
  | nil => exact .ok t
  | cons x rest ih => exact (t.remove_sane _ _ _).bind fun a _ => ih a.1

theorem removeShards_sane (t : ReplicaTable) (name : String) (shards : List ShardId) :
    Sane (removeShards t name shards) := by
  induction shards generalizing t with
  | nil => exact .ok _
  | cons q rest ih =>
    exact (t.removeShard_sane name q).bind fun a _ => (ih a.1).bind fun _ _ => .pure _

theorem checkPlacement_sane (c : Cluster) (l : List (ShardId × List PeerId)) :
    Sane (c.checkPlacement l) := by
  induction l with
  | nil => exact .ok ()
  | cons x rest ih =>
    obtain ⟨q, hosts⟩ := x
    rw [checkPlacement]
    refine .ite (fun _ => by simp) fun _ => ?_
    cases hosts.find? (fun p => !c.peers.contains p) with
    | some p => simp
    | none => exact ih

theorem insertPlacement_sane (t : ReplicaTable) (name : String) (placement : Placement) :
    Sane (insertPlacement t name placement) :=
  .foldlM (fun t _ => .foldlM (fun t _ => t.insert_sane _ _ _ _) t) t

theorem requireCustom_sane (name : String) (coll : Collection) : Sane (requireCustom name coll) :=
  .ite (fun _ => .ok ()) fun _ => by simp

theorem unclaimed_sane (q : ShardId) (p : PeerId) (found : Option Transfer) :
    Sane (match found with
      | some t => throw (.transferConflict (.usesReplica q p t.key))
      | none => pure () : Except Error Unit) := by
  cases found <;> simp

theorem requireUnused_sane (c : Cluster) (name : String) (q : ShardId) (p : PeerId) :
    Sane (c.requireUnused name q p) := by
  refine (c.replicas.state_sane name q p).bind fun state _ => ?_
  cases c.operation? name with
  | none => exact unclaimed_sane q p _
  | some op => exact .guard (by simp) fun _ => unclaimed_sane q p _

theorem checkEpoch_sane (t : Transfer) (epoch : UInt64) : Sane (checkEpoch t epoch) :=
  .ite (fun _ => .ok ()) fun _ => by simp

theorem forceAborts_sane (hs : c.Sound) (ha : ∀ n, (c.face n).Agrees) (event : TopologyEvent) :
    Sane (c.forceAborts event) := by
  obtain ⟨c', e, h⟩ := rollBackAll_ok hs ha (Error.topologyConflict event.describe).message
    (c.affected event)
  exact .of_ok ⟨(c', e), h⟩

theorem removePeer_sane (hs : c.Sound) (ha : ∀ n, (c.face n).Agrees) (peer : PeerId)
    (force : Bool) : Sane (c.removePeer peer force) := by
  refine (c.requirePeer_sane peer).bind fun _ _ => .guard (by simp) fun _ => ?_
  refine (forceAborts_sane hs ha _).bind fun _ _ => ?_
  exact (removeReplicas_sane _ _).bind fun _ _ => (removeReplicas_sane _ _).bind fun _ _ => .pure _

theorem createCollection_sane (c : Cluster) (name : String) (config : CollectionConfig)
    (placement : Placement) : Sane (c.createCollection name config placement) := by
  -- what is left once the groups are settled by the method
  have hrest : ∀ groups, Sane (do
      c.checkPlacement placement.entries
      let replicas ← insertPlacement (c.replicas.register name) name placement
      return ({ c with
        replicas, collections := c.collections.insert name { config, groups } }, ({} : Effects))) :=
    fun _ => (c.checkPlacement_sane _).bind fun _ _ =>
      (insertPlacement_sane _ _ _).bind fun _ _ => .pure _
  refine .guard (by simp) fun _ => .guard (by simp) fun _ => ?_
  cases config.method with
  | auto => exact .guard (by simp) fun _ => (Sane.pure _).bind fun _ _ => hrest _
  | custom =>
    refine .ite (fun _ => (Sane.pure _).bind fun _ _ => hrest _) fun _ => ?_
    exact (Sane.throw_iff.2 (by simp)).bind fun _ _ => hrest _

theorem deleteCollection_sane (hs : c.Sound) (ha : ∀ n, (c.face n).Agrees) (name : String) :
    Sane (c.deleteCollection name) :=
  (c.collection_sane name).bind fun _ _ => (forceAborts_sane hs ha _).bind fun _ _ => .pure _

theorem createShardKey_sane (c : Cluster) (name : String) (key : ShardKey) (placement : Placement) :
    Sane (c.createShardKey name key placement) := by
  refine (c.collection_sane name).bind fun coll _ => (requireCustom_sane name coll).bind fun _ _ => ?_
  refine .guard (by simp) fun _ => .guard (by simp) fun _ => ?_
  have hrest : Sane (do
      c.checkPlacement placement.entries
      let replicas ← insertPlacement c.replicas name placement
      let router := Router.single (.ofShards c.ringPositions placement.keys)
      return ({ c.setCollection name (coll.setRouter (some key) router) with replicas },
        ({} : Effects))) :=
    (c.checkPlacement_sane _).bind fun _ _ => (insertPlacement_sane _ _ _).bind fun _ _ => .pure _
  cases placement.keys.find? coll.shardSet.contains with
  | some q => exact (Sane.throw_iff.2 (by simp)).bind fun _ _ => hrest
  | none => exact hrest

theorem deleteShardKey_sane (hs : c.Sound) (ha : ∀ n, (c.face n).Agrees) (name : String)
    (key : ShardKey) : Sane (c.deleteShardKey name key) := by
  refine (c.collection_sane name).bind fun coll _ => (requireCustom_sane name coll).bind fun _ _ => ?_
  refine .guard (by simp) fun _ => (forceAborts_sane hs ha _).bind fun _ _ => ?_
  exact (Cluster.collection_sane _ name).bind fun _ _ => (removeShards_sane _ _ _).bind fun _ _ => .pure _

/-- Either the stage refuses the action, or the operation is there and in a stage for it. -/
theorem advance_cases (c : Cluster) (name : String) {a : Action} (hne : a ≠ .start) :
    (∃ op next, c.operations.get? name = some op ∧
      Stage.next true (some op.stage) a = .ok next) ∨
    ∃ e, c.advance name a = .error e ∧ ∀ why, e ≠ .internal why := by
  cases hx : c.advance name a with
  | ok x =>
    obtain ⟨_, op, next, -, ho, hn, -⟩ := advance_eq_ok.1 hx
    exact .inl ⟨op, next, ho, hn⟩
  | error e => exact .inr ⟨e, rfl, Sane.error_iff.1 (hx ▸ c.advance_sane name hne)⟩

section
variable (ha : (c.face name).Agrees)
include ha

/-- The operation of a collection is rolled back without fail, if there is one. -/
theorem rollBack_sane (hs : c.Sound) (forced : Bool) (reason : String) :
    Sane (c.rollBack name forced reason) := by
  cases ho : c.operations.get? name with
  | none => exact .of_ok ⟨_, rollBack_none ho forced reason⟩
  | some op => exact .of_ok (rollBack_ok hs ha ho forced reason)

theorem commitRead_sane : Sane (c.commitRead name) := by
  obtain ⟨op, next, ho, hn⟩ | ⟨e, he, hwhy⟩ := advance_cases c name (a := .commitRead)
    (by simp)
  · have hstage : op.stage = .awaitingReadCommit := by cases hst : op.stage <;> simp_all [Stage.next]
    obtain ⟨c', e, hok⟩ := commitRead_ok ha ho hstage
    exact .of_ok ⟨_, hok⟩
  · simp [commitRead, he, bind, Except.bind, hwhy]

theorem commitWrite_sane : Sane (c.commitWrite name) := by
  obtain ⟨op, next, ho, hn⟩ | ⟨e, he, hwhy⟩ := advance_cases c name (a := .commitWrite)
    (by simp)
  · have hstage : op.stage = .awaitingWriteCommit := by cases hst : op.stage <;> simp_all [Stage.next]
    obtain ⟨c', e, hok⟩ := commitWrite_ok ha ho hstage
    exact .of_ok ⟨_, hok⟩
  · simp [commitWrite, he, bind, Except.bind, hwhy]

theorem finishResharding_sane (hs : c.Sound) : Sane (c.finishResharding name) := by
  obtain ⟨op, next, ho, hn⟩ | ⟨e, he, hwhy⟩ := advance_cases c name (a := .finish)
    (by simp)
  · have hstage : op.stage = .awaitingFinish := by cases hst : op.stage <;> simp_all [Stage.next]
    obtain ⟨⟨c', e, hok⟩, -⟩ | ⟨-, _, q, -, -, -, herr⟩ := finishResharding_cases hs ha ho hstage
    · exact .of_ok ⟨_, hok⟩
    · simp [herr]
  · simp [finishResharding, he, bind, Except.bind, hwhy]

theorem abortResharding_sane (hs : c.Sound) (forced : Bool) (reason : String) :
    Sane (c.abortResharding name forced reason) :=
  (c.collection_sane name).bind fun _ _ => (Stage.next_sane _ _ _).bind fun _ _ =>
    rollBack_sane ha hs forced reason

end

/-- A router takes a change up, as no other is in flight in a collection without an operation. -/
theorem startResharding_sane {plan : Plan} (ha : (c.face plan.operation.collection).Agrees)
    (hk : (c.face plan.operation.collection).Keyed) : Sane (c.startResharding plan) := by
  refine (c.requireIdle_sane _).bind fun _ hidle => (Stage.next_sane _ _ _).bind fun _ _ => ?_
  refine (c.requirePeer_sane _).bind fun _ _ => (c.collection_sane _).bind fun coll hc => ?_
  rw [collection_eq_ok] at hc
  rw [requireIdle_eq_ok] at hidle
  rw [face, hc, hidle] at ha hk
  refine (requireNoTransfer_sane _ coll).bind fun _ _ => ?_
  refine (coll.router_sane hk.grouped _).bind fun r hr => ?_
  have hrest : r.resharding = false := (ha.rests (Collection.router_eq_ok.1 hr).2).resharding
  refine (Router.start_sane hrest _).bind fun r' _ => (claimReplicas_sane _ _ _).bind fun _ _ => ?_
  refine .ite (fun _ => ?_) fun _ => (Sane.pure _).bind fun _ _ => .pure _
  exact (Cluster.advance_sane _ _ (by simp)).map.bind fun _ _ => .pure _

theorem startTransfer_sane (c : Cluster) (name : String) (t : Transfer) :
    Sane (c.startTransfer name t) := by
  refine (c.collection_sane _).bind fun coll _ => (c.requireIdle_sane _).bind fun _ _ => ?_
  refine .guard (by simp) fun _ => .guard (by simp) fun _ => ?_
  refine (c.requirePeer_sane _).bind fun _ _ => (c.requirePeer_sane _).bind fun _ _ => ?_
  refine (c.replicas.state_sane _ _ _).bind fun _ _ => .guard (by simp) fun _ => ?_
  refine .guard (by simp) fun _ => (TransferKey.checkAgainst_sane _ _).bind fun _ _ => ?_
  exact (c.replicas.insert_sane _ _ _ _).bind fun _ _ => .pure _

theorem finishSlice_sane (c : Cluster) (name : String) (hg : coll.Grouped) (key : TransferKey) :
    Sane (c.finishSlice name coll key) := by
  unfold finishSlice
  obtain ⟨transfers, next⟩ := release key.destination coll.transfers
  have hg' : ({ coll with transfers } : Collection).Grouped := hg
  -- once the next copy is asked for, only the stage may move on
  have hrest : ∀ (c : Cluster) (p : Prop) [Decidable p] (spawn : List CopyRequest), Sane (if p then do
        let c ← (·.1) <$> c.advance name .transfersFinished
        pure (c, ({ spawn } : Effects))
      else do
        let c ← pure c
        pure (c, ({ spawn } : Effects))) := fun c _ _ _ =>
    .ite (fun _ => (c.advance_sane name (by simp)).map.bind fun _ _ => .pure _) fun _ =>
      (Sane.pure _).bind fun _ _ => .pure _
  cases next with
  | some t =>
    exact (Collection.router_sane hg' _).bind fun _ _ => (Sane.pure _).bind fun _ _ => hrest _ _ _
  | none => exact (Sane.pure _).bind fun _ _ => hrest _ _ _

theorem finishTransfer_sane (hk : (c.face name).Keyed) (key : TransferKey) (epoch : UInt64) :
    Sane (c.finishTransfer name key epoch) := by
  refine (c.collection_sane name).bind fun coll hc => (Collection.find_sane _).bind fun t _ => ?_
  refine (checkEpoch_sane t epoch).bind fun _ _ => .guard (by simp) fun _ => .ite (fun _ => ?_) fun _ => ?_
  · have hg : coll.Grouped := by
      rw [face, collection_eq_ok.1 hc] at hk
      exact hk.grouped
    have hg' : ({ coll with
        transfers := coll.transfers.eraseP (·.key == key) } : Collection).Grouped := hg
    exact (finishSlice_sane c name hg' key).bind fun _ _ => .pure _
  · exact (c.replicas.setState_sane _ _ _ _).bind fun _ _ => .pure _

theorem discardTransfer_sane (c : Cluster) (name : String) (coll : Collection) (key : TransferKey) :
    Sane (c.discardTransfer name coll key) :=
  (c.replicas.remove_sane _ _ _).bind fun _ _ => .pure _

theorem failTransfer_sane (hs : c.Sound) (ha : (c.face name).Agrees) (key : TransferKey)
    (epoch : UInt64) (reason : String) : Sane (c.failTransfer name key epoch reason) := by
  refine (c.collection_sane name).bind fun coll _ => (Collection.find_sane _).bind fun t _ => ?_
  refine (checkEpoch_sane t epoch).bind fun _ _ => .ite (fun _ => ?_) fun _ => ?_
  · exact (rollBack_sane ha hs true _).bind fun _ _ => .pure _
  · exact (discardTransfer_sane c name coll key).bind fun _ _ => .pure _

theorem abortTransfer_sane (c : Cluster) (name : String) (key : TransferKey) :
    Sane (c.abortTransfer name key) := by
  refine (c.collection_sane name).bind fun coll _ => (Collection.find_sane _).bind fun t _ => ?_
  exact .guard (by simp) fun _ => (discardTransfer_sane c name coll key).bind fun _ _ => .pure _

theorem dropReplica_sane (c : Cluster) (name : String) (q : ShardId) (p : PeerId) :
    Sane (c.dropReplica name q p) := by
  refine (c.requireUnused_sane name q p).bind fun _ _ => ?_
  refine (c.replicas.shardReplicas_sane name q).bind fun _ _ => .guard (by simp) fun _ => ?_
  exact (c.replicas.remove_sane _ _ _).bind fun _ _ => .pure _

theorem setReplicaState_sane (c : Cluster) (name : String) (q : ShardId) (p : PeerId)
    (s : ReplicaState) : Sane (c.setReplicaState name q p s) := by
  refine (c.replicas.state_sane name q p).bind fun _ _ => .guard (by simp) fun _ => ?_
  refine (c.requireUnused_sane name q p).bind fun _ _ => ?_
  exact (c.replicas.setState_sane _ _ _ _).bind fun _ _ => .pure _

theorem apply_sane (hs : c.Sound) (ha : ∀ n, (c.face n).Agrees) (hk : ∀ n, (c.face n).Keyed)
    (entry : Entry) : Sane (c.apply entry) := by
  cases entry with
  | addPeer p => exact .ite (fun _ => by simp) fun _ => .ok _
  | removePeer p force => exact removePeer_sane hs ha p force
  | createCollection name config placement => exact createCollection_sane c name config placement
  | deleteCollection name => exact deleteCollection_sane hs ha name
  | createShardKey name key placement => exact createShardKey_sane c name key placement
  | deleteShardKey name key => exact deleteShardKey_sane hs ha name key
  | startResharding plan => exact startResharding_sane (ha _) (hk _)
  | commitRead name => exact commitRead_sane (ha name)
  | commitWrite name => exact commitWrite_sane (ha name)
  | finishResharding name => exact finishResharding_sane (ha name) hs
  | abortResharding name forced reason => exact abortResharding_sane (ha name) hs forced reason
  | startTransfer name t => exact startTransfer_sane c name t
  | finishTransfer name key epoch => exact finishTransfer_sane (hk name) key epoch
  | failTransfer name key epoch reason => exact failTransfer_sane hs (ha name) key epoch reason
  | abortTransfer name key => exact abortTransfer_sane c name key
  | dropReplica name q p => exact dropReplica_sane c name q p
  | setReplicaState name q p s => exact setReplicaState_sane c name q p s

/-! ### Plans -/

theorem sourceOf_sane (q : ShardId) (replicas : List Replica) (planned : List TransferKey) :
    Sane (sourceOf q replicas planned) := by
  unfold sourceOf
  split <;> simp

theorem gather_sane (c : Cluster) (name : String) (q : ShardId) (p : PeerId)
    (planned : List TransferKey) (group : List ShardId) : Sane (c.gather name q p planned group) := by
  induction group generalizing planned with
  | nil => exact .ok planned
  | cons source rest ih =>
    exact (c.replicas.shardReplicas_sane _ _).bind fun _ _ => (sourceOf_sane _ _ _).bind fun _ _ => ih _

theorem scatter_sane (c : Cluster) (name : String) (q : ShardId) (p : PeerId)
    (targets : List ShardId) : Sane (c.scatter name q p targets) := by
  induction targets with
  | nil => exact .ok []
  | cons target rest ih =>
    exact (c.replicas.shardReplicas_sane _ _).bind fun _ _ => .guard (by simp) fun _ =>
      ih.bind fun _ _ => .pure _

/-- The peer that an added shard goes to, named or not. -/
theorem joiningPeer_sane {α : Type} (c : Cluster) (name : String) (named : Option PeerId)
    {k : PeerId → Except Error α} (hk : ∀ p, Sane (k p)) :
    Sane (do
      let p ← match named with
        | some p => do c.requirePeer p; pure p
        | none => match c.leastLoaded name with
          | some p => pure p
          | none => throw (.badRequest .noPeers)
      k p) := by
  cases named with
  | some p => exact (c.requirePeer_sane p).bind fun _ _ => (Sane.pure _).bind fun _ _ => hk _
  | none =>
    cases c.leastLoaded name with
    | some p => exact (Sane.pure _).bind fun _ _ => hk _
    | none => exact (Sane.throw_iff.2 (by simp)).bind fun _ _ => hk _

/-- The peer that loses the replica of a removed shard, named or not. -/
theorem leavingPeer_sane {α : Type} (c : Cluster) (name : String) (q : ShardId) (named : Option PeerId)
    {k : PeerId → Except Error α} (hk : ∀ p, Sane (k p)) :
    Sane (do
      let replicas ← c.replicas.shardReplicas name q
      let p ← match named with
        | some p => do
          c.requirePeer p
          let state ← c.replicas.state name q p
          if state != .active then throw (.badRequest (.notActive q p state))
          pure p
        | none => sourceOf q replicas []
      k p) := by
  refine (c.replicas.shardReplicas_sane name q).bind fun replicas _ => ?_
  cases named with
  | some p =>
    refine (c.requirePeer_sane p).bind fun _ _ => (c.replicas.state_sane _ _ _).bind fun _ _ => ?_
    exact .guard (by simp) fun _ => (Sane.pure _).bind fun _ _ => hk _
  | none => exact (sourceOf_sane _ _ _).bind fun _ _ => hk _

theorem planUp_sane (c : Cluster) (name : String) (coll : Collection) (group : List ShardId)
    (request : ReshardingRequest) : Sane (c.planUp name coll group request) := by
  have hpeer := fun q => c.joiningPeer_sane name request.peer (fun p =>
    (c.gather_sane name q p [] group).bind fun keys _ => .pure (q, p, keys))
  unfold planUp
  cases request.shard with
  | some s =>
    refine .ite (fun _ => ?_) fun _ => (Sane.pure _).bind fun q _ => hpeer q
    exact (Sane.throw_iff.2 (by simp)).bind fun q _ => hpeer q
  | none => exact (coll.nextShard_sane).bind fun q _ => hpeer q

theorem choose_sane (policy : RemovalPolicy) (group : List ShardId) : Sane (choose policy group) := by
  unfold choose
  dsimp only
  split <;> simp

theorem planDown_sane (c : Cluster) (name : String) (group : List ShardId)
    (request : ReshardingRequest) (policy : RemovalPolicy) :
    Sane (c.planDown name group request policy) := by
  have hpeer := fun q => c.leavingPeer_sane name q request.peer (fun p =>
    (c.scatter_sane name q p (group.filter (· != q))).bind fun keys _ => .pure (q, p, keys))
  unfold planDown
  refine .guard (by simp) fun _ => ?_
  cases request.shard with
  | some s =>
    refine .ite (fun _ => (Sane.pure _).bind fun q _ => hpeer q) fun _ => ?_
    exact (Sane.throw_iff.2 (by simp)).bind fun q _ => hpeer q
  | none => exact (choose_sane policy group).bind fun q _ => hpeer q

theorem plan_sane (hk : (c.face name).Keyed) (request : ReshardingRequest) (policy : RemovalPolicy)
    (now : Timestamp) : Sane (c.plan name request policy now) := by
  refine (c.collection_sane name).bind fun coll hc => (c.requireIdle_sane name).bind fun _ _ => ?_
  refine (requireNoTransfer_sane name coll).bind fun _ _ => ?_
  have hg : coll.Grouped := by
    rw [face, collection_eq_ok.1 hc] at hk
    exact hk.grouped
  refine (Collection.router_sane hg _).bind fun r _ => ?_
  cases request.direction with
  | up => exact (c.planUp_sane name coll r.shards request).bind fun _ _ => .pure _
  | down => exact (c.planDown_sane name r.shards request policy).bind fun _ _ => .pure _

/-- However a cluster came about, neither an entry nor a request for a plan ends in a defect. -/
theorem no_defect_of_replay {home : PeerId} {ringPositions : Nat} {entries : List Entry}
    (h : Cluster.replay home ringPositions entries = .ok c) :
    (∀ entry why, c.apply entry ≠ .error (.internal why)) ∧
      ∀ name request policy now why, c.plan name request policy now ≠ .error (.internal why) := by
  have hr : Reached (fun _ _ => True) c := (Reached.new home ringPositions).applyAll (fun _ _ _ => trivial) h
  exact ⟨apply_sane hr.sound hr.agrees hr.keyed, fun name => plan_sane (hr.keyed name)⟩

theorem no_defect_growing : ∃ c, Cluster.replay 1 1 growing = .ok c ∧
    (∀ entry why, c.apply entry ≠ .error (.internal why)) ∧
      ∀ name request policy now why, c.plan name request policy now ≠ .error (.internal why) := by
  have hlive : (Cluster.replay 1 1 growing).toOption.isSome = true := by decide +kernel
  cases h : Cluster.replay 1 1 growing with
  | error err =>
    rw [h] at hlive
    cases hlive
  | ok c => exact ⟨c, rfl, no_defect_of_replay h⟩

end Cluster
end ShardCluster
