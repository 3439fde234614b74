import ShardCluster.Proofs.Copy.Batches
/-! What becomes of a copy over a store whose calls fail now and then. As long as no step fails more
often in a row than the retries allow, the copy ends as it does over a store that never fails: the
destination has the points that it had, overwritten with those that the copy takes from the source,
and every count is exact. Otherwise the copy gives up after the last try, and what the destination
has by then is a part of that, with all that has been acknowledged. -/
namespace ShardCluster
open Std SortedMap

namespace Task
variable {S : Store} {σ : Lapsing} {t : Task}

/-- How much a copy has still to do, tries apart. -/
def left (t : Task) (S : Store) : Nat :=
  let unread := (S.replica t.source).size - t.checkpoint.batches * t.config.batchSize
  match t.phase with
  | .fetch _ => 2 * unread + 4
  | .apply .. => 2 * unread + 3
  | .surveySource _ => 2
  | .surveyTarget .. => 1
  | .ended _ => 0

/-- The tries of the step that is due that have failed. -/
def attempt (t : Task) : Nat :=
  match t.phase with
  | .fetch a | .apply _ a | .surveySource a | .surveyTarget _ a => a
  | .ended _ => 0

/-- After a batch there is less to do than when it was due. -/
theorem Counts.left (h : t.Counts S) : (t.acknowledge (t.page S)).left S <
    2 * ((S.replica t.source).size - t.checkpoint.batches * t.config.batchSize) + 3 := by
  have hpos := h.paged
  obtain ⟨hf, hphase⟩ | ⟨-, hphase | hphase⟩ := t.acknowledge_phase (t.page S)
  · obtain ⟨hbatches, hlong⟩ := h.more hf
    simp only [Task.left, hphase, hbatches, acknowledge_source, acknowledge_config, Nat.succ_mul]
    omega
  · simp only [Task.left, hphase]
    omega
  · simp only [Task.left, hphase]
    omega

/-- A call that succeeds leaves less to do. -/
theorem Underway.left (h : t.Underway S σ.store) (hne : t.source ≠ t.target)
    (ho : t.outcome? = none) (hl : σ.lapses 0 = none) : (t.step σ).1.left S < t.left S := by
  have hbatch := h.counts.left
  obtain ⟨j, a, hj⟩ := exists_job ho
  rw [Task.left.eq_def t, hj]
  cases j with
  | fetch =>
    have hpage : σ.store.fetch t.source t.checkpoint.offset t.config.batchSize = t.page S :=
      h.holds.page hne
    rw [step_fetch hj, Lapsing.pointStore_fetch, hl, Lapse.reply, hpage]
    obtain ⟨-, hfetched⟩ | hfetched := t.fetched_ok a (t.page S)
    · rw [hfetched]
      exact Nat.lt_succ_of_lt hbatch
    · rw [hfetched]
      exact Nat.lt_succ_self _
  | apply page =>
    obtain rfl := h.due.apply hj
    rw [step_apply hj, Lapsing.pointStore_upsert, hl]
    exact hbatch
  | surveySource =>
    rw [step_surveySource hj, Lapsing.pointStore_scroll, hl]
    exact Nat.lt_succ_self 1
  | surveyTarget expected =>
    rw [step_surveyTarget hj, Lapsing.pointStore_scroll, hl, Lapse.reply, Task.compared]
    split <;> exact Nat.zero_lt_one

/-- What a copy has come to after `n` calls, if it has come through. -/
structure Completed (S : Store) (t : Task) (lapses : Nat → Option Lapse) (n : Nat) : Prop where
  result : (course lapses t S n).1.result? = some (.ok (S.count t.source t.request.slice))
  points : (course lapses t S n).1.checkpoint.points = S.count t.source t.request.slice
  batches : (course lapses t S n).1.checkpoint.batches =
    ((S.replica t.source).size + t.config.batchSize - 1) / t.config.batchSize
  retries : (course lapses t S n).1.retries = Lapse.failures lapses n
  /-- The destination is overwritten with just the selected points of the source. -/
  target : ∀ id, ((course lapses t S n).2.store.replica t.target).get? id =
    if Slice.admits t.request.slice id = true
    then ((S.replica t.source).get? id).or ((S.replica t.target).get? id)
    else (S.replica t.target).get? id
  /-- No other replica changes, and so not the source. -/
  elsewhere : ∀ l, l ≠ t.target → (course lapses t S n).2.store.contents.get? l = S.contents.get? l

theorem Underway.completed {lapses : Nat → Option Lapse} {n : Nat}
    (h : (course lapses t S n).1.Underway S (course lapses t S n).2.store)
    (hend : (course lapses t S n).1.outcome? = some .finished)
    (hretries : (course lapses t S n).1.retries = Lapse.failures lapses n) :
    Completed S t lapses n := by
  obtain ⟨hrequest, hconfig⟩ := course_same lapses t S n
  obtain ⟨hsource, htarget⟩ := course_ends lapses t S n
  generalize hc : course lapses t S n = c at h hend hretries hrequest hconfig hsource htarget
  have hread : c.1.AllRead S := h.due.finished (outcome?_ended.1 hend)
  have hcount : S.count t.source t.request.slice = c.1.checkpoint.points := by
    rw [h.counts.points, covered_of_allRead hread, hsource, hrequest, Store.count, Store.scroll,
      Store.toPoints, List.length_map]
  refine ⟨?_, ?_, ?_, ?_, fun id => ?_, ?_⟩
  · rw [hc, result?, hend, hcount, ← h.counts.copied]
    rfl
  · rw [hc, hcount]
  · rw [hc]
    have hless := h.counts.batches
    rw [AllRead] at hread
    rw [hsource, hconfig] at hread hless
    refine (Nat.div_eq_of_lt_le ?_ ?_).symm
    · omega
    · rw [Nat.succ_mul]
      omega
  · rw [hc, hretries]
  · rw [hc, ← htarget, ← hrequest, ← hsource]
    split
    · rename_i hadmits
      cases hx : (S.replica c.1.source).get? id with
      | some x =>
        refine h.holds.landed (id, x) ?_ hadmits
        rw [covered_of_allRead hread]
        exact mem_entries.2 hx
      | none =>
        obtain hkept | ⟨-, x, hx', -⟩ := h.holds.mixed id
        · rw [hkept, Option.none_or]
        · cases hx.symm.trans hx'
    · rename_i hadmits
      obtain hkept | ⟨hadmits', -⟩ := h.holds.mixed id
      · exact hkept
      · exact absurd hadmits' hadmits
  · rw [hc, ← htarget]
    exact h.holds.elsewhere

/-- A copy of three points in batches of two, to a replica with a fourth. -/
def copying : Task :=
  { request := ⟨"points", ⟨1, 0, 1, 2⟩, 1, none⟩, config := { batchSize := 2, maxRetries := 1 } }

end Task
end ShardCluster
