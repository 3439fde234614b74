import Mathlib.Data.Nat.Count
import ShardCluster.Proofs.Copy.Step
/-! A copy over a store whose calls fail now and then. A call that fails is seen as a storage fault,
and a write that fails may have brought any of its points through. Calls that fail in a row are tries
of one step, since only a call that succeeds takes the copy on. -/
namespace ShardCluster

/-- A call of the store that fails. -/
structure Lapse where
  fault : StorageFault
  /-- The points that come through all the same, if the call is a write. -/
  written : Point → Bool

namespace Lapse

/-- What the caller hears. -/
def reply {α : Type} (answer : α) : Option Lapse → Except Error α
  | none => .ok answer
  | some lapse => .error (.storage lapse.fault)

/-- What a write makes of the store. -/
def upsert (s : Store) (l : Location) (points : List Point) : Option Lapse → Store
  | none => s.upsert l points
  | some lapse =>
    if (points.filter lapse.written).isEmpty then s else s.upsert l (points.filter lapse.written)

/-- More than `r` calls in a row fail before the `n`-th. -/
def Persist (lapses : Nat → Option Lapse) (r n : Nat) : Prop :=
  ∃ k, k + r < n ∧ ∀ i ≤ r, (lapses (k + i)).isSome

/-- How many of the first `n` calls fail. -/
def failures (lapses : Nat → Option Lapse) (n : Nat) : Nat :=
  Nat.count (fun i => (lapses i).isSome) n

section
variable {lapses : Nat → Option Lapse} {r n : Nat}

theorem failures_of_none (h : lapses n = none) : failures lapses (n + 1) = failures lapses n := by
  simp [failures, Nat.count_succ, h]

theorem failures_of_some {lapse : Lapse} (h : lapses n = some lapse) :
    failures lapses (n + 1) = failures lapses n + 1 := by
  simp [failures, Nat.count_succ, h]

/-- The last of the calls has failed too, or it was over before. -/
theorem Persist.succ (h : Persist lapses r (n + 1)) :
    Persist lapses r n ∨ ∃ k, n = k + r ∧ ∀ i ≤ r, (lapses (k + i)).isSome := by
  obtain ⟨k, hk, hfails⟩ := h
  obtain hlt | heq := Nat.lt_or_eq_of_le (Nat.le_of_lt_succ hk)
  · exact .inl ⟨k, hlt, hfails⟩
  · exact .inr ⟨k, heq.symm, hfails⟩

/-- A call that succeeds ends what has failed in a row. -/
theorem Persist.of_none (h : Persist lapses r (n + 1)) (hl : lapses n = none) :
    Persist lapses r n := by
  obtain h | ⟨k, rfl, hfails⟩ := h.succ
  · exact h
  · have hlast := hfails r (Nat.le_refl r)
    rw [hl] at hlast
    cases hlast

end
end Lapse

/-- A store and what becomes of its calls, in the order in which they are made. -/
structure Lapsing where
  store : Store
  lapses : Nat → Option Lapse

namespace Lapsing

/-- One call is over. -/
def next (s : Lapsing) (store : Store) : Lapsing := ⟨store, fun n => s.lapses (n + 1)⟩

instance : PointStore Lapsing where
  fetch s l after limit :=
    (s.next s.store, Lapse.reply (s.store.fetch l after limit) (s.lapses 0))
  upsert s l points :=
    (s.next (Lapse.upsert s.store l points (s.lapses 0)), Lapse.reply () (s.lapses 0))
  scroll s l slice :=
    (s.next s.store, Lapse.reply (s.store.scroll l slice) (s.lapses 0))

variable (s : Lapsing) (l : Location)

@[simp] theorem pointStore_fetch (after : Option PointId) (limit : Nat) :
    PointStore.fetch s l after limit =
      (s.next s.store, Lapse.reply (s.store.fetch l after limit) (s.lapses 0)) := rfl

@[simp] theorem pointStore_upsert (points : List Point) :
    PointStore.upsert s l points =
      (s.next (Lapse.upsert s.store l points (s.lapses 0)), Lapse.reply () (s.lapses 0)) := rfl

@[simp] theorem pointStore_scroll (slice : Option Slice) :
    PointStore.scroll s l slice =
      (s.next s.store, Lapse.reply (s.store.scroll l slice) (s.lapses 0)) := rfl

end Lapsing

/-- A step of a copy, whichever try of it this is. -/
inductive Job where
  | fetch
  | apply (page : Page)
  | surveySource
  | surveyTarget (expected : List Point)

namespace Job

def phase : Job → Nat → Phase
  | fetch, n => .fetch n
  | apply page, n => .apply page n
  | surveySource, n => .surveySource n
  | surveyTarget expected, n => .surveyTarget expected n

def name : Job → String
  | fetch => "fetch"
  | apply _ => "apply"
  | surveySource | surveyTarget _ => "verify"

end Job

namespace Task
variable {t : Task} {S : Store} {s : Lapsing} {j : Job} {a : Nat}

/-- The copy and its store after so many steps, each of which makes a call that may fail. -/
abbrev course (lapses : Nat → Option Lapse) (t : Task) (S : Store) (n : Nat) : Task × Lapsing :=
  t.steps (⟨S, lapses⟩ : Lapsing) n

/-- The copy ends with the `n`-th call. -/
structure EndsWith (lapses : Nat → Option Lapse) (t : Task) (S : Store) (n : Nat) : Prop where
  before : ∀ m < n, (course lapses t S m).1.outcome? = none
  after : (course lapses t S n).1.outcome? ≠ none

instance (lapses : Nat → Option Lapse) (t : Task) (S : Store) (n : Nat) :
    Decidable (EndsWith lapses t S n) :=
  decidable_of_iff ((∀ m < n, (course lapses t S m).1.outcome? = none) ∧
    (course lapses t S n).1.outcome? ≠ none) ⟨fun h => ⟨h.1, h.2⟩, fun h => ⟨h.1, h.2⟩⟩

theorem EndsWith.unique {lapses : Nat → Option Lapse} {m n : Nat} (hm : EndsWith lapses t S m)
    (hn : EndsWith lapses t S n) : m = n := by
  obtain hlt | heq | hlt := Nat.lt_trichotomy m n
  · exact absurd (hn.before m hlt) hm.after
  · exact heq
  · exact absurd (hm.before n hlt) hn.after

/-- Turn by turn the copy comes to the same end. -/
theorem EndsWith.turns {lapses : Nat → Option Lapse} {n : Nat} (h : EndsWith lapses t S n) :
    t.turns (⟨S, lapses⟩ : Lapsing) n = course lapses t S n := by
  obtain ⟨m, hle, hm⟩ := t.turns_steps (⟨S, lapses⟩ : Lapsing) n
  obtain ⟨o, ho⟩ := Option.ne_none_iff_exists'.1 h.after
  obtain ⟨k, rfl⟩ := Nat.exists_eq_add_of_le hle
  rw [hm, steps_add, steps_ended (outcome?_ended.1 ho)]

theorem exists_job (h : t.outcome? = none) : ∃ j : Job, ∃ a, t.phase = j.phase a := by
  cases hp : t.phase with
  | fetch a => exact ⟨.fetch, a, rfl⟩
  | apply page a => exact ⟨.apply page, a, rfl⟩
  | surveySource a => exact ⟨.surveySource, a, rfl⟩
  | surveyTarget expected a => exact ⟨.surveyTarget expected, a, rfl⟩
  | ended o => simp [outcome?, hp] at h

theorem outcome?_job (h : t.phase = j.phase a) : t.outcome? = none := by
  cases j <;> simp [outcome?, h, Job.phase]

/-- A step is tried once more, and nothing else changes. -/
theorem retry_again (fault : StorageFault) (h : a < t.config.maxRetries) :
    t.retry j.name a (.storage fault) j.phase =
      { t with phase := j.phase (a + 1), retries := t.retries + 1 } := by
  simp [retry, Error.retryable, h]

/-- A step is given up. -/
theorem retry_spent (fault : StorageFault) (h : t.config.maxRetries ≤ a) :
    t.retry j.name a (.storage fault) j.phase =
      { t with
        phase := .ended (.failed (.transferFailed
          (.exhausted j.name (a + 1) (Error.storage fault).message))) } := by
  simp [retry, Nat.not_lt.2 h]

/-- A call that fails leaves the task with its step, and may bring some of a page through. -/
theorem step_some (h : t.phase = j.phase a) {lapse : Lapse} (hl : s.lapses 0 = some lapse) :
    (t.step s).1 = t.retry j.name a (.storage lapse.fault) j.phase ∧
      ((t.step s).2.store = s.store ∨ ∃ page, j = .apply page ∧
        (t.step s).2.store = Lapse.upsert s.store t.target (t.selected page) (some lapse)) := by
  cases j with
  | fetch =>
    rw [step_fetch h, Lapsing.pointStore_fetch, hl]
    exact ⟨rfl, .inl rfl⟩
  | apply page =>
    rw [step_apply h, Lapsing.pointStore_upsert, hl]
    exact ⟨rfl, .inr ⟨page, rfl, rfl⟩⟩
  | surveySource =>
    rw [step_surveySource h, Lapsing.pointStore_scroll, hl]
    exact ⟨rfl, .inl rfl⟩
  | surveyTarget expected =>
    rw [step_surveyTarget h, Lapsing.pointStore_scroll, hl]
    exact ⟨rfl, .inl rfl⟩

theorem acknowledge_new (page : Page) : (∃ j : Job, (t.acknowledge page).phase = j.phase 0) ∨
    (t.acknowledge page).phase = .ended .finished := by
  obtain ⟨-, hphase⟩ | ⟨-, hphase | hphase⟩ := t.acknowledge_phase page
  · exact .inl ⟨.fetch, hphase⟩
  · exact .inl ⟨.surveySource, hphase⟩
  · exact .inr hphase

/-- A call that succeeds takes the task to its next step, or to its end. -/
theorem step_none (h : t.phase = j.phase a) (hl : s.lapses 0 = none) :
    ((∃ j' : Job, (t.step s).1.phase = j'.phase 0) ∨
      ∃ o, (t.step s).1.phase = .ended o ∧
        (o = .finished ∨ ∃ expected, j = .surveyTarget expected)) ∧
    (t.step s).1.retries = t.retries := by
  cases j with
  | fetch =>
    rw [step_fetch h, Lapsing.pointStore_fetch, hl, Lapse.reply]
    obtain ⟨-, hf⟩ | hf := t.fetched_ok a (s.store.fetch t.source t.checkpoint.offset t.config.batchSize)
    · rw [hf]
      exact ⟨(t.acknowledge_new _).imp_right fun hp => ⟨_, hp, .inl rfl⟩, rfl⟩
    · rw [hf]
      exact ⟨.inl ⟨.apply _, rfl⟩, rfl⟩
  | apply page =>
    rw [step_apply h, Lapsing.pointStore_upsert, hl]
    exact ⟨(t.acknowledge_new page).imp_right fun hp => ⟨_, hp, .inl rfl⟩, rfl⟩
  | surveySource =>
    rw [step_surveySource h, Lapsing.pointStore_scroll, hl]
    exact ⟨.inl ⟨.surveyTarget _, rfl⟩, rfl⟩
  | surveyTarget expected =>
    rw [step_surveyTarget h, Lapsing.pointStore_scroll, hl, Lapse.reply, compared]
    split
    · exact ⟨.inr ⟨_, rfl, .inl rfl⟩, rfl⟩
    · exact ⟨.inr ⟨_, rfl, .inr ⟨expected, rfl⟩⟩, rfl⟩

/-- A step that is due makes one call. -/
theorem step_lapses (h : t.phase = j.phase a) (s : Lapsing) :
    (t.step s).2.lapses = fun n => s.lapses (n + 1) := by
  cases j with
  | fetch => rw [step_fetch h, Lapsing.pointStore_fetch, Lapsing.next]
  | apply page => rw [step_apply h, Lapsing.pointStore_upsert, Lapsing.next]
  | surveySource => rw [step_surveySource h, Lapsing.pointStore_scroll, Lapsing.next]
  | surveyTarget expected => rw [step_surveyTarget h, Lapsing.pointStore_scroll, Lapsing.next]

/-- The step that a copy is at after `n` calls, and its tries since call `k`. -/
structure Trying (lapses : Nat → Option Lapse) (t : Task) (S : Store) (n : Nat) (j : Job) (k : Nat) :
    Prop where
  begun : k ≤ n
  within : n ≤ k + t.config.maxRetries
  tries : ∀ i, k + i ≤ n → (course lapses t S (k + i)).1.phase = j.phase i
  failed : ∀ i, k + i < n → (lapses (k + i)).isSome
  /-- What was called before has succeeded. -/
  new : k = 0 ∨ lapses (k - 1) = none
  retries : (course lapses t S n).1.retries = t.retries + Lapse.failures lapses n
  clear : ¬Lapse.Persist lapses t.config.maxRetries n
  /-- What becomes of the calls to come. -/
  left : (course lapses t S n).2.lapses = fun i => lapses (n + i)

section
variable {lapses : Nat → Option Lapse} {n k : Nat}

theorem course_succ (lapses : Nat → Option Lapse) (t : Task) (S : Store) (n : Nat) :
    course lapses t S (n + 1) = (course lapses t S n).1.step (course lapses t S n).2 := rfl

theorem course_same (lapses : Nat → Option Lapse) (t : Task) (S : Store) (n : Nat) :
    (course lapses t S n).1.request = t.request ∧ (course lapses t S n).1.config = t.config :=
  t.steps_same _ n

theorem course_ends (lapses : Nat → Option Lapse) (t : Task) (S : Store) (n : Nat) :
    (course lapses t S n).1.source = t.source ∧ (course lapses t S n).1.target = t.target :=
  t.steps_ends _ n

theorem Trying.phase (h : Trying lapses t S n j k) :
    (course lapses t S n).1.phase = j.phase (n - k) := by
  have hphase := h.tries (n - k) (by have := h.begun; omega)
  rwa [Nat.add_sub_cancel' h.begun] at hphase

theorem Trying.due (h : Trying lapses t S n j k) : (course lapses t S n).2.lapses 0 = lapses n :=
  congrFun h.left 0

theorem Trying.left_succ (h : Trying lapses t S n j k) :
    (course lapses t S (n + 1)).2.lapses = fun i => lapses (n + 1 + i) := by
  rw [course_succ, step_lapses h.phase, h.left]
  funext i
  rw [Nat.add_assoc, Nat.add_comm 1 i]

/-- A call that succeeds is no retry. -/
theorem Trying.retries_of_none (h : Trying lapses t S n j k) (hl : lapses n = none) :
    (course lapses t S (n + 1)).1.retries = t.retries + Lapse.failures lapses (n + 1) := by
  rw [Lapse.failures_of_none hl, ← h.retries, course_succ]
  exact (step_none h.phase (h.due.trans hl)).2

/-- A call that succeeds begins a new step. -/
theorem Trying.next (h : Trying lapses t S n j k) (hl : lapses n = none) {j' : Job}
    (hj : (course lapses t S (n + 1)).1.phase = j'.phase 0) :
    Trying lapses t S (n + 1) j' (n + 1) where
  begun := Nat.le_refl _
  within := Nat.le_add_right _ _
  tries i hi := by
    obtain rfl : i = 0 := by omega
    exact hj
  failed i hi := by omega
  new := .inr hl
  retries := h.retries_of_none hl
  clear hp := h.clear (hp.of_none hl)
  left := h.left_succ

/-- The last of the calls fails too. -/
theorem Trying.persist (h : Trying lapses t S n j k) {lapse : Lapse} (hl : lapses n = some lapse)
    {i : Nat} (hi : k + i ≤ n) : (lapses (k + i)).isSome := by
  obtain hi | hi := Nat.lt_or_eq_of_le hi
  · exact h.failed i hi
  · rw [hi, hl]
    rfl

/-- A call that fails is tried again, unless that was the last try. -/
theorem Trying.again (h : Trying lapses t S n j k) {lapse : Lapse} (hl : lapses n = some lapse)
    (hlt : n < k + t.config.maxRetries) : Trying lapses t S (n + 1) j k := by
  have hbegun := h.begun
  have hnext : (course lapses t S (n + 1)).1 = { (course lapses t S n).1 with
      phase := j.phase (n - k + 1), retries := (course lapses t S n).1.retries + 1 } := by
    rw [course_succ, (step_some h.phase (h.due.trans hl)).1]
    refine retry_again lapse.fault ?_
    rw [(course_same lapses t S n).2]
    omega
  refine ⟨by omega, by omega, fun i hi => ?_, fun i hi => ?_, h.new, ?_, fun hp => ?_, h.left_succ⟩
  · obtain hi | hi := Nat.lt_or_eq_of_le hi
    · exact h.tries i (by omega)
    · obtain rfl : i = n - k + 1 := by omega
      rw [hi, hnext]
  · exact h.persist hl (Nat.le_of_lt_succ hi)
  · rw [hnext, Lapse.failures_of_some hl, ← Nat.add_assoc, ← h.retries]
  · obtain hp | ⟨q, hn, hq⟩ := hp.succ
    · exact h.clear hp
    · -- so many failures reach back to the call that has succeeded
      obtain hk | hnone := h.new
      · omega
      · have hfailed := hq (k - 1 - q) (by omega)
        have hback : q + (k - 1 - q) = k - 1 := by omega
        rw [hback, hnone] at hfailed
        cases hfailed

/-- A copy ends by a call that succeeds, or by the last try of a step. -/
theorem Trying.ended (h : Trying lapses t S n j k)
    (ho : (course lapses t S (n + 1)).1.outcome? ≠ none) :
    (lapses n = none ∧ ¬Lapse.Persist lapses t.config.maxRetries (n + 1) ∧
      (course lapses t S (n + 1)).1.retries = t.retries + Lapse.failures lapses (n + 1)) ∨
    ∃ lapse, lapses n = some lapse ∧ n = k + t.config.maxRetries ∧
      (course lapses t S (n + 1)).1 =
        { (course lapses t S n).1 with
          phase := .ended (.failed (.transferFailed (.exhausted j.name (t.config.maxRetries + 1)
            (Error.storage lapse.fault).message))) } := by
  have hbegun := h.begun
  have hwithin := h.within
  cases hl : lapses n with
  | none => exact .inl ⟨rfl, fun hp => h.clear (hp.of_none hl), h.retries_of_none hl⟩
  | some lapse =>
    have hn : n = k + t.config.maxRetries := by
      by_contra hne
      exact ho (outcome?_job ((h.again hl (by omega)).phase))
    refine .inr ⟨lapse, rfl, hn, ?_⟩
    have hspent : n - k = t.config.maxRetries := by omega
    rw [course_succ, (step_some h.phase (h.due.trans hl)).1, retry_spent, hspent]
    rw [(course_same lapses t S n).2, hspent]

end
end Task
end ShardCluster
