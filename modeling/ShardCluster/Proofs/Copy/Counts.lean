import ShardCluster.Proofs.Copy.Plane
import ShardCluster.Proofs.Copy.Stream
import ShardCluster.Proofs.Metrics.Records
/-! Every copy is counted once when it starts and once when it ends, whichever way that is. -/
namespace ShardCluster

namespace Task
variable {t : Task} {s : FaultyStore}

/-- The copy has not ended. -/
def streams (t : Task) : Bool := t.outcome?.isNone

end Task

namespace DataPlane
variable {d : DataPlane} {T : Task} {id : TaskId}

/-- A copy with these ends is under way. -/
def streams (d : DataPlane) (id : TaskId) : Bool := (d.task? id).any Task.streams

/-- How many copies have not ended. -/
def streaming (d : DataPlane) : Nat := d.tasks.countP Task.streams

/-- The counts of copies agree with the copies. -/
structure Counted (d : DataPlane) : Prop where
  distinct : d.Distinct
  balances : d.metrics.copies.Balances d.streaming

theorem Counted.congr {d' : DataPlane} (h : d.Counted) (ht : d'.tasks = d.tasks)
    (hm : d'.metrics.copies = d.metrics.copies) : d'.Counted := by
  refine ⟨h.distinct.congr ht, ?_⟩
  rw [hm, streaming, ht]
  exact h.balances

/-- The one copy with the given ends among the others. It may be taken away or another be put in its
place. -/
theorem Distinct.split (hd : d.Distinct) (h : d.task? id = some T) : ∃ l r, d.tasks = l ++ T :: r ∧
    (d.forget id).tasks = l ++ r ∧
    ∀ T', d.tasks.map (fun X => if X.request.id = id then T' else X) = l ++ T' :: r := by
  obtain ⟨hT, rfl⟩ := task?_eq_some h
  obtain ⟨l, r, hlr⟩ := List.append_of_mem hT
  rw [DataPlane.Distinct, hlr, List.map_append, List.map_cons, List.nodup_append] at hd
  obtain ⟨-, hr, hl⟩ := hd
  have hother : ∀ X ∈ l ++ r, X.request.id ≠ T.request.id := by
    intro X hX he
    obtain hX | hX := List.mem_append.1 hX
    · exact hl _ (List.mem_map.2 ⟨X, hX, rfl⟩) _ List.mem_cons_self he
    · exact (List.nodup_cons.1 hr).1 (he ▸ List.mem_map.2 ⟨X, hX, rfl⟩)
  obtain ⟨hl, hr⟩ := List.forall_mem_append.1 hother
  have hkept : ∀ xs : List Task, (∀ X ∈ xs, X.request.id ≠ T.request.id) →
      xs.filter (·.request.id != T.request.id) = xs :=
    fun xs hxs => List.filter_eq_self.2 fun X hX => by simp [hxs X hX]
  have hsame : ∀ (T' : Task) (xs : List Task), (∀ X ∈ xs, X.request.id ≠ T.request.id) →
      xs.map (fun X => if X.request.id = T.request.id then T' else X) = xs :=
    fun T' xs hxs => (List.map_congr_left fun X hX => if_neg (hxs X hX)).trans (List.map_id xs)
  refine ⟨l, r, hlr, ?_, fun T' => ?_⟩
  · rw [DataPlane.forget, hlr, List.filter_append, List.filter_cons_of_neg (by simp), hkept l hl,
      hkept r hr]
  · rw [hlr, List.map_append, List.map_cons, if_pos rfl, hsame T' l hl, hsame T' r hr]

theorem streaming_forget (hd : d.Distinct) (ht : d.task? id = some T) :
    d.streaming = (d.forget id).streaming + if T.streams then 1 else 0 := by
  obtain ⟨l, r, hlr, hrest, -⟩ := hd.split ht
  rw [streaming, streaming, hrest, hlr, List.countP_append, List.countP_append, List.countP_cons]
  omega

theorem streaming_replace (hd : d.Distinct) (ht : d.task? id = some T) (T' : Task) :
    (d.tasks.map (fun X => if X.request.id = id then T' else X)).countP Task.streams =
      (d.forget id).streaming + if T'.streams then 1 else 0 := by
  obtain ⟨l, r, -, hrest, hmap⟩ := hd.split ht
  rw [hmap, streaming, hrest, List.countP_append, List.countP_append, List.countP_cons]
  omega

theorem Counted.start (h : d.Counted) (r : CopyRequest) : (d.start r).Counted := by
  have hdistinct := h.distinct.start r
  unfold DataPlane.start at hdistinct ⊢
  split
  · exact h
  · rename_i hrun
    rw [if_neg hrun] at hdistinct
    refine ⟨hdistinct, ?_⟩
    rw [streaming, List.countP_append]
    exact Metrics.balances_started h.balances

theorem forget_tasks_of_none (ht : d.task? id = none) : (d.forget id).tasks = d.tasks :=
  List.filter_eq_self.2 fun T hT => by simpa using task?_eq_none ht T hT

/-- Taking a copy away that has ended is not counted. -/
theorem Counted.forget (h : d.Counted) (ht : d.task? id = some T) (hT : T.streams = false) :
    (d.forget id).Counted := by
  have hs := streaming_forget h.distinct ht
  rw [hT, if_neg Bool.false_ne_true, Nat.add_zero] at hs
  refine ⟨h.distinct.forget id, ?_⟩
  rw [← hs]
  exact h.balances

theorem Counted.cancel (h : d.Counted) (id : TaskId) : (d.cancel id).Counted := by
  unfold DataPlane.cancel
  cases ht : d.task? id with
  | none => exact h
  | some T =>
    simp only
    split
    · rename_i o hp
      exact h.forget ht (by simp [Task.streams, Task.outcome?, hp])
    · rename_i hp
      have hT : T.streams = true := by
        unfold Task.streams Task.outcome?
        split
        · rename_i o ho
          exact absurd ho (hp o)
        · rfl
      have hs := streaming_forget h.distinct ht
      rw [if_pos hT] at hs
      have hb := h.balances
      rw [hs] at hb
      exact ⟨h.distinct.forget id, Metrics.balances_cancelled hb⟩

/-- A turn is counted as an end where it is one. -/
theorem balances_tally {m : Metrics} {n : Nat} (h : m.copies.Balances (n + 1)) (before after : Task) :
    (tally before after m).copies.Balances (n + if after.streams then 1 else 0) := by
  rw [tally, Task.streams]
  cases ho : after.outcome? with
  | none => exact h
  | some o =>
    cases o with
    | finished => exact Metrics.balances_finished h ⟨0⟩
    | failed why => exact Metrics.balances_failed h

theorem Counted.advance (h : d.Counted) (ht : d.task? id = some T) (hT : T.streams = true) :
    (d.advance id).1.Counted := by
  have hmetrics : (d.advance id).1.metrics = tally T (T.turn d.store).1 d.metrics := by
    unfold DataPlane.advance
    rw [ht]
  have hb := h.balances
  rw [streaming_forget h.distinct ht, if_pos hT] at hb
  refine ⟨h.distinct.advance ht (Task.turn_same T d.store).1, ?_⟩
  rw [hmetrics, streaming, (advance_spec ht).2, streaming_replace h.distinct ht]
  exact balances_tally hb T _

theorem mem_starts (hT : T ∈ d.tasks) (requests : List CopyRequest) :
    T ∈ (requests.foldl DataPlane.start d).tasks := by
  induction requests generalizing d with
  | nil => exact hT
  | cons r rest ih =>
    refine ih ?_
    unfold DataPlane.start
    split
    · exact hT
    · exact List.mem_append_left _ hT

/-- A copy that has ended is in the way of another one with its ends. -/
theorem streams_of_ended (hd : d.Distinct) (hT : T ∈ d.tasks) (ho : T.outcome?.isSome) :
    d.streams T.request.id = false := by
  rw [streams]
  cases ht : d.task? T.request.id with
  | none => rfl
  | some T' =>
    obtain ⟨hT', hid⟩ := task?_eq_some ht
    rw [hd.unique hT' hT hid, Option.any_some, Task.streams, Option.isNone_eq_false_iff]
    exact ho

theorem Counted.cancelAll (h : d.Counted) : d.cancelAll.Counted := by
  unfold DataPlane.cancelAll
  exact List.foldlRecOn _ DataPlane.cancel h fun _ hd id _ => hd.cancel id

/-- What happens to copies is not counted as something that happens to operations. -/
theorem operations_start (d : DataPlane) (r : CopyRequest) :
    (d.start r).metrics.operations = d.metrics.operations := by
  unfold start
  split <;> rfl

theorem operations_cancel (d : DataPlane) (id : TaskId) :
    (d.cancel id).metrics.operations = d.metrics.operations := by
  unfold cancel
  split
  · simp only
    split <;> rfl
  · rfl

theorem operations_advance (d : DataPlane) (id : TaskId) :
    (d.advance id).1.metrics.operations = d.metrics.operations := by
  unfold advance
  split
  · simp only [tally]
    split <;> rfl
  · rfl

theorem operations_cancelAll (d : DataPlane) : d.cancelAll.metrics.operations = d.metrics.operations :=
  foldl_keeps (·.metrics.operations) operations_cancel _ d

end DataPlane

namespace Node
variable {d : DataPlane}

/-- A copy that is not cancelled stays in the table. -/
theorem mem_planeEffects {T : Task} {e : Effects} (hT : T ∈ d.tasks) (he : T.request.id ∉ e.cancel) :
    T ∈ (planeEffects d e).tasks := by
  have hcancelled : T ∈ (e.cancel.foldl DataPlane.cancel d).tasks := by
    rw [(DataPlane.cancels_spec d e.cancel).2.2]
    exact List.mem_filter.2 ⟨hT, by simpa using he⟩
  have hcleaned := foldl_keeps DataPlane.tasks (f := cleanUp) (fun d x => (cleanUp_rest d x).2.1)
    e.cleanup (e.cancel.foldl DataPlane.cancel d)
  rw [← hcleaned] at hcancelled
  exact DataPlane.mem_starts hcancelled e.spawn

/-- The copies are counted whatever effects are carried out, also over a store that fails. -/
theorem counted_planeEffects (h : d.Counted) (e : Effects) : (planeEffects d e).Counted := by
  refine planeEffects_keeps (fun _ id h => h.cancel id) (fun d x h => ?_) (fun _ r h => h.start r) h e
  obtain ⟨-, htasks, hmetrics⟩ := cleanUp_rest d x
  exact h.congr htasks (congrArg Metrics.copies hmetrics)

theorem operations_planeEffects (d : DataPlane) (e : Effects) :
    (planeEffects d e).metrics.operations = d.metrics.operations := by
  refine planeEffects_keeps (P := fun d' => d'.metrics.operations = d.metrics.operations)
    (fun d' id h => ?_) (fun d' x h => ?_) (fun d' r h => ?_) rfl e
  · exact (DataPlane.operations_cancel d' id).trans h
  · exact (congrArg Metrics.operations (cleanUp_rest d' x).2.2).trans h
  · exact (DataPlane.operations_start d' r).trans h

end Node
end ShardCluster
