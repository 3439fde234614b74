import ShardCluster.Proofs.Cluster.Ready
import ShardCluster.Proofs.Transfer.Queue
/-! In every cluster whose operations start by plans, a transfer that waits does so for another one. -/
namespace ShardCluster
open SortedMap Transfer

namespace Cluster

theorem enlist_queued {done : List Transfer} (h : Queued done) (key : TransferKey) :
    Queued (enlist done key) := by
  refine ⟨fun t ht => ?_, fun t ht => ?_⟩
  · obtain ht | ht := List.mem_append.1 ht
    · exact h.status t ht
    · obtain rfl := List.mem_singleton.1 ht
      dsimp only
      split
      · exact .inr rfl
      · exact .inl rfl
  · obtain ht | ht := List.mem_append.1 ht
    · obtain ⟨t', hin, hd, hr⟩ := h.running t ht
      exact ⟨t', List.mem_append_left _ hin, hd, hr⟩
    · obtain rfl := List.mem_singleton.1 ht
      cases hbusy : done.any (fun t => t.key.destination == key.destination) with
      | true =>
        obtain ⟨t', hin, hd⟩ := List.any_eq_true.1 hbusy
        obtain ⟨t₁, hin₁, hd₁, hr⟩ := h.running t' hin
        exact ⟨t₁, List.mem_append_left _ hin₁, hd₁.trans (beq_iff_eq.1 hd), hr⟩
      | false =>
        have hlast : { key, method := .slice, status := .running } ∈ enlist done key := by
          simp [enlist, hbusy]
        exact ⟨_, hlast, rfl, rfl⟩

theorem schedule_queued (keys : List TransferKey) : Queued (schedule keys) := by
  have hfold : ∀ (keys : List TransferKey) (done : List Transfer), Queued done →
      Queued (keys.foldl enlist done) := by
    intro keys
    induction keys with
    | nil => exact fun done h => h
    | cons key rest ih => exact fun done h => ih _ (enlist_queued h key)
  exact hfold keys [] .nil

theorem plan_queued {c : Cluster} {name : String} {request : ReshardingRequest} {policy : RemovalPolicy}
    {now : Timestamp} {plan : Plan} (h : c.plan name request policy now = .ok plan) :
    Queued plan.transfers := by
  simp only [Cluster.plan, bind_eq_ok] at h
  obtain ⟨_, -, -, -, -, -, x, -, h⟩ := h
  cases hd : request.direction with
  | up =>
    simp only [hd, bind_eq_ok, pure_eq_ok] at h
    obtain ⟨⟨_, _, keys⟩, -, rfl⟩ := h
    exact schedule_queued keys
  | down =>
    simp only [hd, bind_eq_ok, pure_eq_ok] at h
    obtain ⟨⟨_, _, keys⟩, -, rfl⟩ := h
    exact schedule_queued keys

end Cluster

namespace Face
variable {F F' : Face} {w : Wake} {name : String} {epoch : UInt64} {entry : Entry}

/-- Copies of whole shards never wait. -/
theorem Fits.queued_idle (h : F.Fits) (ho : F.operation = none) : Queued F.transfers := by
  obtain ⟨coll, op, l⟩ := F
  obtain rfl : op = none := ho
  cases coll with
  | none => exact .nil
  | some coll => exact .of_running fun t ht => (h.idle.2 t ht).running

theorem Fits.queued_change (hf : F.Fits) (hf' : F'.Fits) (h : Queued F.transfers)
    (hp : ∀ plan, entry = .startResharding plan → plan.operation.collection = name →
      Queued plan.transfers) (hc : Change name epoch entry F w F') : Queued F'.transfers := by
  cases hc with
  | foundAuto => exact .nil
  | foundCustom => exact .nil
  | deleted => exact .nil
  | keyAdded => exact h
  | @keyDropped coll op l key r hr ho =>
    cases op with
    | none => exact hf'.queued_idle rfl
    | some o =>
      -- the transfers of the operation are about another group
      obtain ⟨x, -, hx, hfollows, -, hfeeds, -⟩ := hf.live
      have hapart : ∀ q, q ∈ x.shards → q ∉ r.shards := fun q hq hq' =>
        ho o rfl ((hf.fit coll rfl).parted.apart hx hr hq hq')
      have hall : coll.transfers.filter
          (fun t => !(r.shards.contains t.key.shard || r.shards.contains t.key.toShard)) =
          coll.transfers := by
        refine List.filter_eq_self.2 fun t ht => ?_
        have hfeed := hfeeds t ht
        simpa using ⟨hapart _ (hfeed.shard_mem hfollows), hapart _ (hfeed.toShard_mem hfollows)⟩
      simp only [transfers_some, hall]
      exact h
  | @started coll l plan r r' hn ht hr hr' hl => exact (hp plan rfl hn).stamp epoch
  | readCommitted => exact h
  | writeCommitted => exact h
  | finishedUp => exact h
  | finishedDown => exact h
  | rolledBack hb => exact hf.transfers_nil hb ▸ .nil
  | replicated => exact hf'.queued_idle rfl
  | @copied coll op l t ht hs hm hd =>
    obtain rfl := (hf.fit coll rfl).operation_none hf.agrees ht hm
    exact hf'.queued_idle rfl
  | @sliced coll op l t transfers next starts ht hs hm hn hw =>
    rw [Transfer.eraseP_key (hf.fit coll rfl).keys] at hn
    obtain rfl : (Cluster.release t.key.destination _).1 = transfers := congrArg Prod.fst hn
    exact Cluster.release_queued h t
  | @discarded entry coll op l t he ht hm =>
    obtain rfl := (hf.fit coll rfl).operation_none hf.agrees ht hm
    exact hf'.queued_idle rfl
  | unclaimed => exact h
  | replicaDropped => exact h
  | stateSet => exact h
  | @evicted coll op l peer force ho hfree =>
    cases op with
    | none => exact hf'.queued_idle rfl
    | some o =>
      obtain ⟨r, hr, -⟩ := hf.live
      obtain ⟨-, -, hout⟩ := ho o rfl
      have hall : (coll.take (·.key.involves peer)).1.transfers = coll.transfers := by
        refine List.filter_eq_self.2 fun t ht => ?_
        simpa using hout t ht ((hf.fit coll rfl).slices hr t ht)
      simp only [transfers_some, hall]
      exact h

end Face

namespace Cluster
variable {c : Cluster}

theorem Reached.queued (h : Reached Planned c) (name : String) : Queued (c.face name).transfers := by
  have hboth : (c.face name).Fits ∧ Queued (c.face name).transfers := by
    refine h.invariant (P := fun F => F.Fits ∧ Queued F.transfers)
      (Q := fun n entry F => F.Planned n entry ∧ ∀ plan, entry = .startResharding plan →
        plan.operation.collection = n → Queued plan.transfers)
      ⟨⟨.empty _, nofun⟩, .nil⟩ (fun hF hb => ⟨hF.1.rollsBack hb, hF.1.transfers_nil hb ▸ .nil⟩)
      (fun hF hQ hc => ?_) (fun {c entry} _ hF ha n => ?_) name
    · have hf' := hF.1.change hQ.1 hc
      exact ⟨hf', hF.1.queued_change hf' hF.2 hQ.2 hc⟩
    · have hqueued : ∀ plan, entry = .startResharding plan → plan.operation.collection = n →
          Queued plan.transfers := by
        intro plan he _
        obtain ⟨_, _, _, _, hplan⟩ := ha plan he
        exact plan_queued hplan
      refine ⟨⟨ha.face n, hqueued⟩, fun w F' hb => ⟨fun plan he hn => ?_, hqueued⟩⟩
      obtain ⟨ho, -⟩ := ha.face n plan he hn
      obtain ⟨⟨op, hop⟩, -⟩ := hb.operation
      cases ho.symm.trans hop
  exact hboth.2

end Cluster
end ShardCluster
