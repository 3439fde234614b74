import Mathlib.Data.List.Nodup
import ShardCluster.Node.Basic
import ShardCluster.Proofs.Copy.Turn
/-! What effects do to the data plane: which copies are left and start, and which points are left. -/
namespace ShardCluster

/-- The points of a replica are to be cleaned up. -/
def Cleanup.Hits : Cleanup → Location → PointId → Prop
  | .drop l', l, _ => l = l'
  | .delete l' s, l, id => l = l' ∧ s.selects id = true

namespace DataPlane
variable {d : DataPlane} {T : Task} {id : TaskId}

/-- No two copies have the same ends. -/
def Distinct (d : DataPlane) : Prop := (d.tasks.map (·.request.id)).Nodup

theorem task?_eq_some (h : d.task? id = some T) : T ∈ d.tasks ∧ T.request.id = id :=
  ⟨List.mem_of_find?_eq_some h, by simpa using List.find?_some h⟩

theorem task?_eq_none (h : d.task? id = none) : ∀ T ∈ d.tasks, T.request.id ≠ id := by
  simpa [task?] using h

theorem Distinct.unique (h : d.Distinct) {T' : Task} (hT : T ∈ d.tasks) (hT' : T' ∈ d.tasks)
    (he : T.request.id = T'.request.id) : T = T' :=
  List.inj_on_of_nodup_map h hT hT' he

theorem Distinct.congr {d' : DataPlane} (h : d.Distinct) (ht : d'.tasks = d.tasks) : d'.Distinct := by
  rw [Distinct, ht]
  exact h

theorem mem_forget : T ∈ (d.forget id).tasks ↔ T ∈ d.tasks ∧ T.request.id ≠ id := by
  simp [forget]

theorem Distinct.forget (h : d.Distinct) (id : TaskId) : (d.forget id).Distinct :=
  h.sublist (List.filter_sublist.map _)

/-- Cancelling takes the copy away and changes nothing else but the counts. -/
theorem cancel_spec (d : DataPlane) (id : TaskId) : (d.cancel id).store = d.store ∧
    (d.cancel id).config = d.config ∧ (d.cancel id).tasks = (d.forget id).tasks := by
  unfold cancel
  cases ht : d.task? id with
  | none =>
    have hall : d.tasks.filter (·.request.id != id) = d.tasks :=
      List.filter_eq_self.2 fun T hT => by simpa using task?_eq_none ht T hT
    exact ⟨rfl, rfl, hall.symm⟩
  | some t =>
    simp only
    split
    · exact ⟨rfl, rfl, rfl⟩
    · exact ⟨rfl, rfl, rfl⟩

theorem cancels_spec (d : DataPlane) (ids : List TaskId) :
    (ids.foldl cancel d).store = d.store ∧ (ids.foldl cancel d).config = d.config ∧
      (ids.foldl cancel d).tasks = d.tasks.filter (fun T => decide (T.request.id ∉ ids)) := by
  induction ids generalizing d with
  | nil => exact ⟨rfl, rfl, (List.filter_eq_self.2 fun _ _ => by simp).symm⟩
  | cons id rest ih =>
    obtain ⟨hstore, hconfig, htasks⟩ := cancel_spec d id
    obtain ⟨hstore', hconfig', htasks'⟩ := ih (d.cancel id)
    refine ⟨hstore'.trans hstore, hconfig'.trans hconfig, ?_⟩
    rw [List.foldl_cons, htasks', htasks, forget, List.filter_filter]
    refine List.filter_congr fun T _ => ?_
    by_cases hT : T.request.id = id <;> simp [hT]

theorem mem_start {r : CopyRequest} (h : T ∈ (d.start r).tasks) :
    T ∈ d.tasks ∨ T = { request := r, config := d.config } := by
  unfold start at h
  split at h
  · exact .inl h
  · obtain h | h := List.mem_append.1 h
    · exact .inl h
    · exact .inr (List.mem_singleton.1 h)

theorem Distinct.start (h : d.Distinct) (r : CopyRequest) : (d.start r).Distinct := by
  unfold DataPlane.start
  split
  · exact h
  · rename_i hrun
    have hnone : d.task? r.id = none := by simpa [isRunning] using hrun
    have hnew := task?_eq_none hnone
    simp only [Distinct, List.map_append, List.map_cons, List.map_nil]
    refine List.nodup_append.2 ⟨h, by simp, fun a ha b hb => ?_⟩
    obtain ⟨T, hT, rfl⟩ := List.mem_map.1 ha
    obtain rfl := List.mem_singleton.1 hb
    exact hnew T hT

theorem start_store (d : DataPlane) (r : CopyRequest) : (d.start r).store = d.store := by
  unfold start
  split <;> rfl

theorem start_config (d : DataPlane) (r : CopyRequest) : (d.start r).config = d.config := by
  unfold start
  split <;> rfl

theorem starts_spec (hd : d.Distinct) (requests : List CopyRequest) :
    (requests.foldl start d).store = d.store ∧ (requests.foldl start d).Distinct ∧
      ∀ T ∈ (requests.foldl start d).tasks,
        T ∈ d.tasks ∨ ∃ r ∈ requests, T = { request := r, config := d.config } := by
  induction requests generalizing d with
  | nil => exact ⟨rfl, hd, fun T hT => .inl hT⟩
  | cons r rest ih =>
    obtain ⟨hstore, hdistinct, hmem⟩ := ih (hd.start r)
    refine ⟨hstore.trans (start_store d r), hdistinct, fun T hT => ?_⟩
    obtain hT | ⟨r', hr', rfl⟩ := hmem T hT
    · obtain hT | rfl := mem_start hT
      · exact .inl hT
      · exact .inr ⟨r, List.mem_cons_self, rfl⟩
    · exact .inr ⟨r', List.mem_cons_of_mem _ hr', by rw [start_config]⟩

/-- A copy takes its turn; the others wait. -/
theorem advance_spec (h : d.task? id = some T) :
    (d.advance id).1.store = (T.turn d.store).2 ∧
    (d.advance id).1.tasks =
      d.tasks.map (fun X => if X.request.id = id then (T.turn d.store).1 else X) := by
  unfold advance
  rw [h]
  exact ⟨rfl, rfl⟩

/-- A report is of the copy that had its turn. -/
theorem advance_reports {d' : DataPlane} {r : Report} (h : d.advance id = (d', some r)) :
    ∃ T, d.task? id = some T ∧ (T.turn d.store).1 ∈ d'.tasks ∧
      reportOf (T.turn d.store).1 = some r := by
  cases ht : d.task? id with
  | none => simp [advance, ht] at h
  | some T =>
    obtain ⟨hT, hid⟩ := task?_eq_some ht
    have htasks := (advance_spec ht).2
    rw [h] at htasks
    have hreport : (d.advance id).2 = reportOf (T.turn d.store).1 := by
      unfold advance
      rw [ht]
    rw [h] at hreport
    refine ⟨T, rfl, ?_, hreport.symm⟩
    rw [htasks]
    exact List.mem_map.2 ⟨T, hT, if_pos hid⟩

theorem Distinct.advance (hd : d.Distinct) (h : d.task? id = some T)
    (hr : (T.turn d.store).1.request = T.request) : (d.advance id).1.Distinct := by
  have hids : (d.advance id).1.tasks.map (·.request.id) = d.tasks.map (·.request.id) := by
    rw [(advance_spec h).2, List.map_map]
    refine List.map_congr_left fun X _ => ?_
    simp only [Function.comp_apply]
    split
    · rename_i hX
      rw [hr, (task?_eq_some h).2, hX]
    · rfl
  rw [Distinct, hids]
  exact hd

theorem mem_advance (h : d.task? id = some T) {X : Task} (hX : X ∈ (d.advance id).1.tasks) :
    X = (T.turn d.store).1 ∨ X ∈ d.tasks := by
  rw [(advance_spec h).2] at hX
  obtain ⟨Y, hY, rfl⟩ := List.mem_map.1 hX
  split
  · exact .inl rfl
  · exact .inr hY

/-- The copies that run and those that will be started have the same settings. -/
structure Uniform (c : CopyConfig) (d : DataPlane) : Prop where
  config : d.config = c
  tasks : ∀ T ∈ d.tasks, T.config = c

section
variable {c : CopyConfig}

theorem Uniform.congr {d' : DataPlane} (h : d.Uniform c) (hc : d'.config = d.config)
    (ht : d'.tasks = d.tasks) : d'.Uniform c :=
  ⟨hc.trans h.config, ht ▸ h.tasks⟩

theorem Uniform.forget (h : d.Uniform c) (id : TaskId) : (d.forget id).Uniform c :=
  ⟨h.config, fun T hT => h.tasks T (mem_forget.1 hT).1⟩

theorem Uniform.cancel (h : d.Uniform c) (id : TaskId) : (d.cancel id).Uniform c := by
  obtain ⟨-, hconfig, htasks⟩ := cancel_spec d id
  exact (h.forget id).congr hconfig htasks

theorem Uniform.start (h : d.Uniform c) (r : CopyRequest) : (d.start r).Uniform c := by
  refine ⟨(start_config d r).trans h.config, fun T hT => ?_⟩
  obtain hT | rfl := mem_start hT
  · exact h.tasks T hT
  · exact h.config

theorem Uniform.advance (h : d.Uniform c) (id : TaskId) : (d.advance id).1.Uniform c := by
  cases ht : d.task? id with
  | none =>
    simp only [DataPlane.advance, ht]
    exact h
  | some T =>
    have hconfig : (d.advance id).1.config = d.config := by simp only [DataPlane.advance, ht]
    refine ⟨hconfig.trans h.config, fun X hX => ?_⟩
    obtain rfl | hX := mem_advance ht hX
    · exact (T.turn_same d.store).2.trans (h.tasks T (task?_eq_some ht).1)
    · exact h.tasks X hX

end
end DataPlane

namespace Node
variable {d : DataPlane}

theorem cleanUp_spec (hf : d.store.faults = []) (x : Cleanup) :
    (cleanUp d x).store.faults = [] ∧ (cleanUp d x).tasks = d.tasks ∧
      (cleanUp d x).config = d.config ∧ ∀ l id,
        (x.Hits l id → ((cleanUp d x).store.store.replica l).get? id = none) ∧
        (¬x.Hits l id →
          ((cleanUp d x).store.store.replica l).get? id = (d.store.store.replica l).get? id) := by
  cases x with
  | drop l' =>
    have hs : (cleanUp d (.drop l')).store = ⟨d.store.store.drop l', []⟩ := by
      simp [cleanUp, FaultyStore.drop, FaultyStore.attempt_ok hf]
    refine ⟨by rw [hs], rfl, rfl, fun l id => ?_⟩
    rw [hs, Store.get?_drop]
    exact ⟨fun h => if_pos h, fun h => if_neg h⟩
  | delete l' slice =>
    have hs : (cleanUp d (.delete l' slice)).store = ⟨(d.store.store.delete l' slice).1, []⟩ := by
      simp [cleanUp, FaultyStore.delete, FaultyStore.attempt_ok hf]
    refine ⟨by rw [hs], rfl, rfl, fun l id => ?_⟩
    rw [hs, Store.get?_delete]
    exact ⟨fun h => if_pos h, fun h => if_neg h⟩

theorem cleanUps_spec (hf : d.store.faults = []) (xs : List Cleanup) :
    (xs.foldl cleanUp d).store.faults = [] ∧ (xs.foldl cleanUp d).tasks = d.tasks ∧
      (xs.foldl cleanUp d).config = d.config ∧ ∀ l id,
        ((∃ x ∈ xs, x.Hits l id) → ((xs.foldl cleanUp d).store.store.replica l).get? id = none) ∧
        ((¬∃ x ∈ xs, x.Hits l id) → ((xs.foldl cleanUp d).store.store.replica l).get? id =
          (d.store.store.replica l).get? id) := by
  induction xs generalizing d with
  | nil => exact ⟨hf, rfl, rfl, fun l id => ⟨by simp, fun _ => rfl⟩⟩
  | cons x rest ih =>
    obtain ⟨hfaults, htasks, hconfig, hheld⟩ := cleanUp_spec hf x
    obtain ⟨hfaults', htasks', hconfig', hheld'⟩ := ih hfaults
    refine ⟨hfaults', htasks'.trans htasks, hconfig'.trans hconfig, fun l id => ?_⟩
    obtain ⟨hwiped, hkept⟩ := hheld l id
    obtain ⟨hwiped', hkept'⟩ := hheld' l id
    by_cases hrest : ∃ y ∈ rest, y.Hits l id
    · obtain ⟨y, hy, hh⟩ := hrest
      refine ⟨fun _ => hwiped' ⟨y, hy, hh⟩, fun h => absurd ⟨y, List.mem_cons_of_mem _ hy, hh⟩ h⟩
    · refine ⟨fun h => ?_, fun h => ?_⟩
      · obtain ⟨y, hy, hh⟩ := h
        obtain rfl | hy := List.mem_cons.1 hy
        · exact (hkept' hrest).trans (hwiped hh)
        · exact absurd ⟨y, hy, hh⟩ hrest
      · have hx : ¬x.Hits l id := fun hh => h ⟨x, List.mem_cons_self, hh⟩
        exact (hkept' hrest).trans (hkept hx)

/-- What every cancellation, cleanup and start keeps, effects keep. -/
theorem planeEffects_keeps {P : DataPlane → Prop} (hcancel : ∀ d id, P d → P (d.cancel id))
    (hcleanUp : ∀ d x, P d → P (cleanUp d x)) (hstart : ∀ d r, P d → P (d.start r)) (h : P d)
    (e : Effects) : P (planeEffects d e) := by
  have hcancelled : P (e.cancel.foldl DataPlane.cancel d) :=
    List.foldlRecOn e.cancel DataPlane.cancel h fun d hd id _ => hcancel d id hd
  have hcleaned : P (e.cleanup.foldl cleanUp (e.cancel.foldl DataPlane.cancel d)) :=
    List.foldlRecOn e.cleanup cleanUp hcancelled fun d hd x _ => hcleanUp d x hd
  exact List.foldlRecOn e.spawn DataPlane.start hcleaned fun d hd r _ => hstart d r hd

/-- A cleanup changes nothing but the store. -/
theorem cleanUp_rest (d : DataPlane) (x : Cleanup) : (cleanUp d x).config = d.config ∧
    (cleanUp d x).tasks = d.tasks ∧ (cleanUp d x).metrics = d.metrics := by
  cases x <;> exact ⟨rfl, rfl, rfl⟩

/-- Effects change the settings of no copy, whatever the store does. -/
theorem uniform_planeEffects {c : CopyConfig} (h : d.Uniform c) (e : Effects) :
    (planeEffects d e).Uniform c := by
  refine planeEffects_keeps (fun _ id h => h.cancel id) (fun d x h => ?_) (fun _ r h => h.start r) h e
  obtain ⟨hconfig, htasks, -⟩ := cleanUp_rest d x
  exact h.congr hconfig htasks

/-- The data plane after effects are carried out. -/
structure Executed (d : DataPlane) (e : Effects) (d' : DataPlane) : Prop where
  faultless : d'.store.faults = []
  distinct : d'.Distinct
  tasks : ∀ T ∈ d'.tasks, (T ∈ d.tasks ∧ T.request.id ∉ e.cancel) ∨
    ∃ r ∈ e.spawn, T = { request := r, config := d.config }
  wiped : ∀ l id, (∃ x ∈ e.cleanup, x.Hits l id) → (d'.store.store.replica l).get? id = none
  kept : ∀ l id, (¬∃ x ∈ e.cleanup, x.Hits l id) →
    (d'.store.store.replica l).get? id = (d.store.store.replica l).get? id

theorem planeEffects_executed (hf : d.store.faults = []) (hd : d.Distinct) (e : Effects) :
    Executed d e (planeEffects d e) := by
  obtain ⟨hstore, hconfig, htasks⟩ := DataPlane.cancels_spec d e.cancel
  let d₁ := e.cancel.foldl DataPlane.cancel d
  have hfaults₁ : d₁.store.faults = [] := hstore ▸ hf
  obtain ⟨hfaults, htasks', hconfig', hheld⟩ := cleanUps_spec hfaults₁ e.cleanup
  let d₂ := e.cleanup.foldl cleanUp d₁
  have hd₂ : d₂.Distinct := by
    have ht : d₂.tasks = d.tasks.filter (fun T => decide (T.request.id ∉ e.cancel)) :=
      htasks'.trans htasks
    rw [DataPlane.Distinct, ht]
    exact hd.sublist (List.filter_sublist.map _)
  obtain ⟨hstore₃, hdistinct, hmem⟩ := DataPlane.starts_spec hd₂ e.spawn
  have hdef : planeEffects d e = e.spawn.foldl DataPlane.start d₂ := rfl
  rw [hdef]
  refine ⟨by rw [hstore₃]; exact hfaults, hdistinct, fun T hT => ?_, fun l id hx => ?_,
    fun l id hx => ?_⟩
  · obtain hT | ⟨r, hr, rfl⟩ := hmem T hT
    · rw [htasks', htasks] at hT
      exact .inl (by simpa using List.mem_filter.1 hT)
    · exact .inr ⟨r, hr, by rw [hconfig', hconfig]⟩
  · rw [hstore₃]
    exact (hheld l id).1 hx
  · rw [hstore₃]
    exact ((hheld l id).2 hx).trans (by rw [hstore])

end Node
end ShardCluster
