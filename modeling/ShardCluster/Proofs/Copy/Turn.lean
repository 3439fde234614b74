import ShardCluster.Proofs.Copy.Step
import ShardCluster.Proofs.Store.Contents
/-! One turn of a copy over a store without faults: a page of the source is read, what the copy
selects of it is written, and the copy waits for its next page or has ended. -/
namespace ShardCluster

namespace FaultyStore
variable {s : FaultyStore} {α : Type} {run : Store → Store × α} {ack : Store → α}

theorem attempt_ok (h : s.faults = []) (call : StoreCall) (l : Location) :
    s.attempt call l run ack = (⟨(run s.store).1, []⟩, .ok (run s.store).2) := by
  simp [attempt, h, Fault.strike]

theorem read_ok (h : s.faults = []) (call : StoreCall) (l : Location) (look : Store → α) :
    s.read call l look = (s, .ok (look s.store)) := by
  obtain ⟨store, faults⟩ := s
  obtain rfl : faults = [] := h
  rw [read, attempt_ok rfl]

theorem upsert_ok (h : s.faults = []) (l : Location) (points : List Point) :
    s.upsert l points = (⟨s.store.upsert l points, []⟩, .ok ()) :=
  attempt_ok h _ _

theorem fetch_ok (h : s.faults = []) (l : Location) (after : Option PointId) (limit : Nat) :
    s.fetch l after limit = (s, .ok (s.store.fetch l after limit)) :=
  read_ok h _ _ _

theorem scroll_ok (h : s.faults = []) (l : Location) (slice : Option Slice) :
    s.scroll l slice = (s, .ok (s.store.scroll l slice)) :=
  read_ok h _ _ _

end FaultyStore

namespace Task
variable {t : Task} {s : FaultyStore} {id : PointId} {x : Bytes}

/-- Between turns a copy is about to fetch, or has ended. -/
def Rests (t : Task) : Prop := t.phase = .fetch 0 ∨ ∃ o, t.phase = .ended o

/-- The copy has yet to read what its source has under the id. -/
structure Ahead (t : Task) (id : PointId) : Prop where
  phase : t.phase = .fetch 0
  offset : ∀ a, t.checkpoint.offset = some a → compare a id = .lt

theorem fresh_ahead (r : CopyRequest) (config : CopyConfig) (id : PointId) :
    ({ request := r, config } : Task).Ahead id := ⟨rfl, nofun⟩

theorem not_ahead_of_ended (ho : t.outcome?.isSome) : ¬t.Ahead id := by
  intro ha
  simp [outcome?, ha.phase] at ho

/-- The last check only compares: it ends the copy and leaves the store. -/
theorem settle_survey (h : t.phase = .surveySource 0) (hs : s.faults = []) (n : Nat) :
    ∃ o, settle (n + 2) t s = ({ t with phase := .ended o }, s) := by
  have hstep : t.step s = ({ t with phase := .surveyTarget (s.store.scroll t.source t.request.slice) 0 }, s) := by
    rw [step_surveySource h, FaultyStore.pointStore_scroll, FaultyStore.scroll_ok hs, surveyed]
  rw [settle_succ (by simp [pausing, h]), hstep, settle_succ rfl]
  have hstep' : ∃ o, ({ t with phase := .surveyTarget (s.store.scroll t.source t.request.slice) 0 } :
      Task).step s = ({ t with phase := .ended o }, s) := by
    rw [step_surveyTarget rfl, FaultyStore.pointStore_scroll, FaultyStore.scroll_ok hs, compared]
    split
    · exact ⟨_, rfl⟩
    · exact ⟨_, rfl⟩
  obtain ⟨o, hstep'⟩ := hstep'
  exact ⟨o, by rw [hstep', settle_pausing rfl]⟩

/-- After a page the copy waits at its last point, unless it was the last page. -/
theorem settle_acknowledged {page : Page} (hs : s.faults = []) (n : Nat) :
    ∃ t', settle (n + 2) (t.acknowledge page) s = (t', s) ∧ t'.request = t.request ∧
      t'.config = t.config ∧ t'.Rests ∧
      ∀ id p, page.points.getLast? = some p → page.isFinal = false → compare p.id id = .lt →
        t'.Ahead id := by
  obtain ⟨hf, hphase⟩ | ⟨hf, hphase | hphase⟩ := t.acknowledge_phase page
  · refine ⟨t.acknowledge page, settle_pausing (by simp [pausing, hphase]) _ s, rfl, rfl, .inl hphase,
      fun id p hp _ hlt => ⟨hphase, fun a ha => ?_⟩⟩
    simp only [acknowledge, hp, Option.some.injEq] at ha
    exact ha ▸ hlt
  · obtain ⟨o, ho⟩ := settle_survey hphase hs n
    exact ⟨_, ho, rfl, rfl, .inr ⟨o, rfl⟩, by simp [hf]⟩
  · exact ⟨t.acknowledge page, settle_pausing (by simp [pausing, hphase]) _ s, rfl, rfl,
      .inr ⟨_, hphase⟩, by simp [hf]⟩

/-- The page that a turn reads. -/
def page (t : Task) (s : Store) : Page := s.fetch t.source t.checkpoint.offset t.config.batchSize

theorem turn_ok (hp : t.phase = .fetch 0) (hs : s.faults = []) : ∃ t' s',
    t.turn s = (t', ⟨s', []⟩) ∧ t'.request = t.request ∧ t'.config = t.config ∧ t'.Rests ∧
    (∀ l id, (s'.replica l).get? id = if l = t.target
      then (Point.latest id (t.selected (t.page s.store))).or ((s.store.replica l).get? id)
      else (s.store.replica l).get? id) ∧
    ∀ id p, (t.page s.store).points.getLast? = some p → (t.page s.store).isFinal = false →
      compare p.id id = .lt → t'.Ahead id := by
  obtain ⟨store, faults⟩ := s
  obtain rfl : faults = [] := hs
  have hstep : t.step (⟨store, []⟩ : FaultyStore) =
      (t.fetched 0 (.ok (t.page store)), ⟨store, []⟩) := by
    rw [step_fetch hp, FaultyStore.pointStore_fetch, FaultyStore.fetch_ok rfl]
    rfl
  have hturn : ∀ t₁ : Task, t.fetched 0 (.ok (t.page store)) = t₁ → t₁.config = t.config →
      t.turn (⟨store, []⟩ : FaultyStore) =
        settle (3 * t.config.maxRetries + 2 + 1) t₁ ⟨store, []⟩ := by
    intro t₁ ht hc
    rw [turn, hstep, ht, ← hc]
    rfl
  by_cases hempty : (t.selected (t.page store)).isEmpty = true
  · -- nothing to write
    have hfetched : t.fetched 0 (.ok (t.page store)) = t.acknowledge (t.page store) := by
      simp [fetched, hempty]
    obtain ⟨t', hsettle, hrequest, hconfig, hrests, hahead⟩ :=
      settle_acknowledged (t := t) (s := ⟨store, []⟩) rfl (3 * t.config.maxRetries + 1)
    refine ⟨t', store, ?_, hrequest, hconfig, hrests, fun l id => ?_, hahead⟩
    · rw [hturn _ hfetched rfl]
      exact hsettle
    · have hnil : t.selected (t.page store) = [] := by simpa using hempty
      rw [hnil]
      split
      · simp [Point.latest]
      · rfl
  · let t₁ : Task := { t with phase := .apply (t.page store) 0 }
    have hfetched : t.fetched 0 (.ok (t.page store)) = t₁ := by simp [fetched, hempty, t₁]
    have happly : t₁.step (⟨store, []⟩ : FaultyStore) = (t₁.acknowledge (t.page store),
        ⟨store.upsert t.target (t.selected (t.page store)), []⟩) := by
      rw [step_apply rfl, FaultyStore.pointStore_upsert, FaultyStore.upsert_ok rfl]
      rfl
    obtain ⟨t', hsettle, hrequest, hconfig, hrests, hahead⟩ := settle_acknowledged (t := t₁)
      (s := ⟨store.upsert t.target (t.selected (t.page store)), []⟩) rfl (3 * t.config.maxRetries)
    refine ⟨t', store.upsert t.target (t.selected (t.page store)), ?_, hrequest, hconfig, hrests,
      fun l id => Store.get?_upsert store t.target l id _, hahead⟩
    rw [hturn _ hfetched rfl, settle_succ rfl, happly]
    exact hsettle

end Task
end ShardCluster
