import ShardCluster.Copy.Task
/-! One step of a copy, over any store. A step makes one call, and what it comes to depends on the
phase and on the answer alone. A turn is some steps. -/
namespace ShardCluster

namespace Task
variable {t : Task} {a : Nat}

theorem retry_same (name : String) (n : Nat) (e : Error) (again : Nat → Phase) :
    (t.retry name n e again).request = t.request ∧ (t.retry name n e again).config = t.config := by
  rw [retry]
  split <;> exact ⟨rfl, rfl⟩

theorem fetched_same (n : Nat) (reply : Except Error Page) :
    (t.fetched n reply).request = t.request ∧ (t.fetched n reply).config = t.config := by
  cases reply with
  | ok page =>
    rw [fetched]
    split <;> exact ⟨rfl, rfl⟩
  | error e => exact retry_same _ _ _ _

theorem applied_same (page : Page) (n : Nat) (reply : Except Error Unit) :
    (t.applied page n reply).request = t.request ∧ (t.applied page n reply).config = t.config := by
  cases reply with
  | ok u => exact ⟨rfl, rfl⟩
  | error e => exact retry_same _ _ _ _

theorem surveyed_same (n : Nat) (reply : Except Error (List Point)) :
    (t.surveyed n reply).request = t.request ∧ (t.surveyed n reply).config = t.config := by
  cases reply with
  | ok expected => exact ⟨rfl, rfl⟩
  | error e => exact retry_same _ _ _ _

theorem compared_same (expected : List Point) (n : Nat) (reply : Except Error (List Point)) :
    (t.compared expected n reply).request = t.request ∧
      (t.compared expected n reply).config = t.config := by
  cases reply with
  | ok present =>
    rw [compared]
    split <;> exact ⟨rfl, rfl⟩
  | error e => exact retry_same _ _ _ _

/-- What comes after a page that is on the destination. -/
theorem acknowledge_phase (t : Task) (page : Page) :
    page.isFinal = false ∧ (t.acknowledge page).phase = .fetch 0 ∨
      page.isFinal = true ∧ ((t.acknowledge page).phase = .surveySource 0 ∨
        (t.acknowledge page).phase = .ended .finished) := by
  cases hf : page.isFinal with
  | false => exact .inl ⟨rfl, by simp [acknowledge, hf]⟩
  | true =>
    refine .inr ⟨rfl, ?_⟩
    cases hv : t.config.verify with
    | false => exact .inr (by simp [acknowledge, hf, hv])
    | true => exact .inl (by simp [acknowledge, hf, hv])

/-- What the task makes of a page that it has read. -/
theorem fetched_ok (n : Nat) (page : Page) :
    t.selected page = [] ∧ t.fetched n (.ok page) = t.acknowledge page ∨
      t.fetched n (.ok page) = { t with phase := .apply page 0 } := by
  rw [fetched]
  split
  · exact .inl ⟨List.isEmpty_iff.1 ‹_›, rfl⟩
  · exact .inr rfl

theorem outcome?_ended {o : Outcome} : t.outcome? = some o ↔ t.phase = .ended o := by
  cases hp : t.phase <;> simp [outcome?, hp]

section
variable {σ : Type} [PointStore σ]

theorem step_fetch (h : t.phase = .fetch a) (s : σ) :
    t.step s = (t.fetched a (PointStore.fetch s t.source t.checkpoint.offset t.config.batchSize).2,
      (PointStore.fetch s t.source t.checkpoint.offset t.config.batchSize).1) := by
  simp only [step, h]

theorem step_apply {page : Page} (h : t.phase = .apply page a) (s : σ) :
    t.step s = (t.applied page a (PointStore.upsert s t.target (t.selected page)).2,
      (PointStore.upsert s t.target (t.selected page)).1) := by
  simp only [step, h]

theorem step_surveySource (h : t.phase = .surveySource a) (s : σ) :
    t.step s = (t.surveyed a (PointStore.scroll s t.source t.request.slice).2,
      (PointStore.scroll s t.source t.request.slice).1) := by
  simp only [step, h]

theorem step_surveyTarget {expected : List Point} (h : t.phase = .surveyTarget expected a) (s : σ) :
    t.step s = (t.compared expected a (PointStore.scroll s t.target t.request.slice).2,
      (PointStore.scroll s t.target t.request.slice).1) := by
  simp only [step, h]

theorem step_ended {o : Outcome} (h : t.phase = .ended o) (s : σ) : t.step s = (t, s) := by
  simp only [step, h]

/-- What is asked of a copy stays. -/
theorem step_same (t : Task) (s : σ) :
    (t.step s).1.request = t.request ∧ (t.step s).1.config = t.config := by
  cases hp : t.phase with
  | fetch n =>
    rw [step_fetch hp]
    exact fetched_same _ _
  | apply page n =>
    rw [step_apply hp]
    exact applied_same _ _ _
  | surveySource n =>
    rw [step_surveySource hp]
    exact surveyed_same _ _
  | surveyTarget expected n =>
    rw [step_surveyTarget hp]
    exact compared_same _ _ _
  | ended o =>
    rw [step_ended hp]
    exact ⟨rfl, rfl⟩

theorem settle_pausing (h : t.pausing = true) (n : Nat) (s : σ) : settle n t s = (t, s) := by
  cases n with
  | zero => rfl
  | succ n => simp [settle, h]

theorem settle_succ (h : t.pausing = false) (n : Nat) (s : σ) :
    settle (n + 1) t s = settle n (t.step s).1 (t.step s).2 := by
  simp [settle, h]

theorem turn_ended {o : Outcome} (h : t.phase = .ended o) (s : σ) : t.turn s = (t, s) := by
  rw [turn, step_ended h]
  exact settle_pausing (by simp [pausing, h]) _ _

/-- The copy and the store after so many steps. -/
def steps (t : Task) (s : σ) : Nat → Task × σ
  | 0 => (t, s)
  | n + 1 => (steps t s n).1.step (steps t s n).2

theorem steps_add (t : Task) (s : σ) (m n : Nat) :
    steps t s (m + n) = steps (steps t s m).1 (steps t s m).2 n := by
  induction n with
  | zero => rfl
  | succ n ih => rw [← Nat.add_assoc, steps, ih, steps]

theorem steps_same (t : Task) (s : σ) (n : Nat) :
    (steps t s n).1.request = t.request ∧ (steps t s n).1.config = t.config := by
  induction n with
  | zero => exact ⟨rfl, rfl⟩
  | succ n ih =>
    obtain ⟨hrequest, hconfig⟩ := step_same (steps t s n).1 (steps t s n).2
    exact ⟨hrequest.trans ih.1, hconfig.trans ih.2⟩

theorem steps_ends (t : Task) (s : σ) (n : Nat) :
    (steps t s n).1.source = t.source ∧ (steps t s n).1.target = t.target := by
  simp only [source, target, (steps_same t s n).1, and_self]

theorem steps_ended {o : Outcome} (h : t.phase = .ended o) (s : σ) (n : Nat) :
    steps t s n = (t, s) := by
  induction n with
  | zero => rfl
  | succ n ih => rw [steps, ih, step_ended h]

theorem settle_steps (fuel : Nat) (t : Task) (s : σ) : ∃ n, settle fuel t s = steps t s n := by
  induction fuel generalizing t s with
  | zero => exact ⟨0, rfl⟩
  | succ fuel ih =>
    cases hp : t.pausing with
    | true => exact ⟨0, settle_pausing hp _ _⟩
    | false =>
      obtain ⟨n, hn⟩ := ih (t.step s).1 (t.step s).2
      refine ⟨1 + n, ?_⟩
      rw [settle_succ hp, hn, steps_add]
      rfl

/-- A turn is one step or more. -/
theorem turn_steps (t : Task) (s : σ) : ∃ n, t.turn s = steps t s (1 + n) := by
  obtain ⟨n, hn⟩ := settle_steps (3 * ((t.step s).1.config.maxRetries + 1)) (t.step s).1 (t.step s).2
  refine ⟨n, ?_⟩
  rw [steps_add]
  exact hn

/-- Whatever the store does, a turn keeps to its request. -/
theorem turn_same (t : Task) (s : σ) :
    (t.turn s).1.request = t.request ∧ (t.turn s).1.config = t.config := by
  obtain ⟨n, hn⟩ := t.turn_steps s
  rw [hn]
  exact steps_same t s _

/-- The copy and the store after so many turns. -/
def turns (t : Task) (s : σ) : Nat → Task × σ
  | 0 => (t, s)
  | n + 1 => (turns t s n).1.turn (turns t s n).2

/-- Turn by turn a copy goes the same way as step by step. -/
theorem turns_steps (t : Task) (s : σ) (n : Nat) : ∃ m, n ≤ m ∧ turns t s n = steps t s m := by
  induction n with
  | zero => exact ⟨0, Nat.le_refl 0, rfl⟩
  | succ n ih =>
    obtain ⟨m, hle, hm⟩ := ih
    obtain ⟨k, hk⟩ := (turns t s n).1.turn_steps (turns t s n).2
    refine ⟨m + (1 + k), by omega, ?_⟩
    rw [turns, hk, hm, ← steps_add]

end
end Task
end ShardCluster
