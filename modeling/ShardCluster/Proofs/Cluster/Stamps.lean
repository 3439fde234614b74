import ShardCluster.Proofs.Cluster.Graft
import ShardCluster.Proofs.Cluster.TransfersFit
/-! Entries that schedule transfers read the epoch, and only to stamp the new transfers with it. -/
namespace ShardCluster

/-- The transfers that an entry schedules. -/
def Entry.scheduled : Entry → List TransferKey
  | .startResharding plan => plan.transfers.map (·.key)
  | .startTransfer _ t => [t.key]
  | _ => []

def Transfer.restamped (keys : List TransferKey) (n : UInt64) (t : Transfer) : Transfer :=
  if t.key ∈ keys then { t with epoch := n } else t

def CopyRequest.restamped (keys : List TransferKey) (n : UInt64) (x : CopyRequest) : CopyRequest :=
  if x.key ∈ keys then { x with epoch := n } else x

def Collection.restamped (keys : List TransferKey) (n : UInt64) (coll : Collection) : Collection :=
  { coll with transfers := coll.transfers.map (·.restamped keys n) }

def Effects.restamped (keys : List TransferKey) (n : UInt64) (e : Effects) : Effects :=
  { e with spawn := e.spawn.map (·.restamped keys n) }

/-- The transfers with the keys get another epoch. -/
def Cluster.restamped (c : Cluster) (name : String) (keys : List TransferKey) (n : UInt64) : Cluster :=
  { c with collections := c.collections.update name (·.restamped keys n) }

section
variable (n : UInt64)

theorem Collection.restamped_nil (coll : Collection) : coll.restamped [] n = coll := by
  have hid : Transfer.restamped [] n = id := by
    funext t
    simp [Transfer.restamped]
  rw [Collection.restamped, hid, List.map_id]

theorem Effects.restamped_nil (e : Effects) : e.restamped [] n = e := by
  have hid : CopyRequest.restamped [] n = id := by
    funext x
    simp [CopyRequest.restamped]
  rw [Effects.restamped, hid, List.map_id]

theorem Cluster.restamped_nil (c : Cluster) (name : String) : c.restamped name [] n = c := by
  have hid : c.collections.update name (·.restamped [] n) = c.collections := by
    refine SortedMap.ext_get? fun k => ?_
    rw [SortedMap.get?_update]
    split
    · cases c.collections.get? k <;> simp [Collection.restamped_nil]
    · rfl
  rw [Cluster.restamped, hid]

end

/-- The transfers that are new get the epoch, and those that were there keep theirs. -/
theorem Collection.restamped_added {keys : List TransferKey} {old new : List Transfer}
    (ho : ∀ t ∈ old, t.key ∉ keys) (hn : ∀ t ∈ new, t.key ∈ keys) (config : CollectionConfig)
    (groups : SortedMap (Option ShardKey) Router) (e n : UInt64) :
    (⟨config, groups, old ++ new.map (fun t => { t with epoch := e })⟩ : Collection).restamped keys n =
      ⟨config, groups, old ++ new.map (fun t => { t with epoch := n })⟩ := by
  have hold : old.map (·.restamped keys n) = old.map id :=
    List.map_congr_left fun t ht => if_neg (ho t ht)
  have hnew : (new.map (fun t => { t with epoch := e })).map (·.restamped keys n) =
      new.map (fun t => { t with epoch := n }) := by
    rw [List.map_map]
    exact List.map_congr_left fun t ht => if_pos (hn t ht)
  rw [Collection.restamped, List.map_append, hold, List.map_id, hnew]

/-- So do their copies. -/
theorem Effects.restamped_spawned {keys : List TransferKey} {new : List Transfer}
    (hn : ∀ t ∈ new, t.key ∈ keys) (name : String) (r : Router) (e n : UInt64) :
    (((new.map (fun t => { t with epoch := e })).filter (·.status == .running)).map
      (Cluster.copyOf name r)).map (·.restamped keys n) =
    ((new.map (fun t => { t with epoch := n })).filter (·.status == .running)).map
      (Cluster.copyOf name r) := by
  induction new with
  | nil => rfl
  | cons t rest ih =>
    obtain ⟨ht, hrest⟩ := List.forall_mem_cons.1 hn
    simp only [List.map_cons, List.filter_cons]
    split
    · simp only [List.map_cons, ih hrest]
      exact congrArg (· :: _) (if_pos ht)
    · exact ih hrest

namespace Cluster
variable (c b : Cluster) (name : String) (n : UInt64)

theorem claimReplicas_grafted (t b : ReplicaTable) (op : Operation) (transfers : List Transfer) :
    claimReplicas (t.grafted b op.collection) op transfers =
      (·.grafted b op.collection) <$> claimReplicas t op transfers := by
  unfold claimReplicas
  cases op.direction with
  | up => exact t.insert_grafted b _ _ _ _
  | down =>
    refine foldlM_map _ (·.grafted b op.collection) (fun t x => ?_) transfers t
    simp [ReplicaTable.setState_grafted]

theorem startTransfer_grafted (t : Transfer) : (c.grafted b name n).startTransfer name t =
    (fun x => ((x.1.restamped name [t.key] (n + 1)).grafted b name (n + 1),
      x.2.restamped [t.key] (n + 1))) <$> c.startTransfer name t := by
  simp only [startTransfer, grafted_collection, grafted_requireIdle, grafted_requirePeer, grafted_replicas,
    ReplicaTable.state_grafted, ReplicaTable.contains_grafted, ReplicaTable.insert_grafted, bind_map_left]
  refine bind_map_congr fun coll => bind_map_congr fun _ => guard_map_congr <| guard_map_congr <|
    bind_map_congr fun _ => bind_map_congr fun _ => bind_map_congr fun s => guard_map_congr <|
    guard_map_congr <| bind_map_of_ok fun _ hnew => bind_map_congr fun table => ?_
  have hrestamped := Collection.restamped_added
    (fun t' ht' => by simpa using TransferKey.checkAgainst_ok hnew t' ht')
    (by simp : ∀ t' ∈ [{ t with status := .running }], t'.key ∈ [t.key])
    coll.config coll.groups (c.epoch + 1) (n + 1)
  simp only [List.map_cons, List.map_nil] at hrestamped
  simp [grafted, restamped, Effects.restamped, CopyRequest.restamped, SortedMap.get?_update, hrestamped]

/-- A plan without transfers moves the stage on at once, and there is nothing to stamp. -/
theorem firstStage_grafted (plan : Plan) {c c' : Cluster} {e e' : Effects}
    (hc : c' = (c.restamped name (plan.transfers.map (·.key)) n).grafted b name n)
    (he : e' = e.restamped (plan.transfers.map (·.key)) n) :
    (if plan.transfers.isEmpty = true then
      c'.advance name .transfersFinished >>= fun x => (pure (x.1, e') : Except Error _)
    else pure c' >>= fun c => pure (c, e')) =
    (fun x => ((x.1.restamped name (plan.transfers.map (·.key)) n).grafted b name n,
      x.2.restamped (plan.transfers.map (·.key)) n)) <$>
    (if plan.transfers.isEmpty = true then
      c.advance name .transfersFinished >>= fun x => (pure (x.1, e) : Except Error _)
    else pure c >>= fun c => pure (c, e)) := by
  rw [hc, he]
  refine ite_map_congr (fun hempty => ?_) fun _ => rfl
  have hnone : plan.transfers.map (·.key) = [] := by simp [List.isEmpty_iff.1 hempty]
  simp [hnone, Cluster.restamped_nil, Effects.restamped_nil, advance_grafted]

theorem startResharding_grafted (plan : Plan) :
    (c.grafted b plan.operation.collection n).startResharding plan =
    (fun x => ((x.1.restamped plan.operation.collection (plan.transfers.map (·.key)) (n + 1)).grafted b
        plan.operation.collection (n + 1), x.2.restamped (plan.transfers.map (·.key)) (n + 1))) <$>
      c.startResharding plan := by
  simp only [startResharding, grafted_collection, grafted_requireIdle, grafted_requirePeer, grafted_replicas,
    claimReplicas_grafted, bind_map_left]
  have hkeys : ∀ t ∈ plan.transfers, t.key ∈ plan.transfers.map (·.key) :=
    fun t ht => List.mem_map_of_mem ht
  refine bind_map_congr fun _ => bind_map_congr fun _ => bind_map_congr fun _ => bind_map_congr fun coll =>
    bind_map_of_ok fun _ hnil => bind_map_congr fun r => bind_map_congr fun r' => bind_map_congr fun table =>
    firstStage_grafted _ _ _ _ ?_ ?_
  · have hrestamped := Collection.restamped_added
      (by simp [requireNoTransfer_eq_ok.1 hnil] : ∀ t ∈ coll.transfers, t.key ∉ plan.transfers.map (·.key))
      hkeys coll.config
      (coll.groups.insert plan.operation.key r') (c.epoch + 1) (n + 1)
    simp [grafted, restamped, SortedMap.get?_update, hrestamped, Collection.setRouter]
  · simp only [grafted_epoch, Effects.restamped, Effects.restamped_spawned hkeys]

/-- An entry cannot tell in which cluster its collection stands: it is accepted and has its effects in
the same way, and the rest of the cluster stays as it is. New transfers get the epoch of the cluster. -/
theorem apply_grafted (hs : c.Sound) {entry : Entry}
    (he : entry.collection? = some name) : (c.grafted b name n).apply entry =
    (fun x => ((x.1.restamped name entry.scheduled (n + entry.raise)).grafted b name (n + entry.raise),
      x.2.restamped entry.scheduled (n + entry.raise))) <$> c.apply entry := by
  have hplain : ∀ {x y : Except Error (Cluster × Effects)} {k : UInt64},
      x = (·.map (·.grafted b name n) id) <$> y →
      x = (fun x => ((x.1.restamped name [] k).grafted b name (n + 0), x.2.restamped [] k)) <$> y := by
    intro x y k h
    simp only [Cluster.restamped_nil, Effects.restamped_nil, UInt64.add_zero]
    exact h
  cases entry with
  | addPeer => cases he
  | removePeer => cases he
  | createCollection _ config placement =>
    cases he
    exact hplain (createCollection_grafted c b _ n config placement)
  | deleteCollection =>
    cases he
    exact hplain (deleteCollection_grafted c b _ n hs)
  | createShardKey _ key placement =>
    cases he
    exact hplain (createShardKey_grafted c b _ n key placement)
  | deleteShardKey _ key =>
    cases he
    exact hplain (deleteShardKey_grafted c b _ n hs key)
  | startResharding plan =>
    cases he
    exact startResharding_grafted c b n plan
  | commitRead =>
    cases he
    exact hplain (commitRead_grafted c b _ n)
  | commitWrite =>
    cases he
    exact hplain (commitWrite_grafted c b _ n)
  | finishResharding =>
    cases he
    exact hplain (finishResharding_grafted c b _ n)
  | abortResharding _ forced reason =>
    cases he
    exact hplain (abortResharding_grafted c b _ n forced reason)
  | startTransfer _ t =>
    cases he
    exact startTransfer_grafted c b _ n t
  | finishTransfer _ key epoch =>
    cases he
    exact hplain (finishTransfer_grafted c b _ n key epoch)
  | failTransfer _ key epoch reason =>
    cases he
    exact hplain (failTransfer_grafted c b _ n key epoch reason)
  | abortTransfer _ key =>
    cases he
    exact hplain (abortTransfer_grafted c b _ n key)
  | dropReplica _ q p =>
    cases he
    exact hplain (dropReplica_grafted c b _ n q p)
  | setReplicaState _ q p s =>
    cases he
    exact hplain (setReplicaState_grafted c b _ n q p s)

end Cluster
end ShardCluster
