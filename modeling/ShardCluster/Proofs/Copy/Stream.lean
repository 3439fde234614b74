import ShardCluster.Proofs.Copy.Turn
/-! A copy whose steps are interleaved with the writes of a client. A write goes to both ends of the
copy, one after the other. A page that was read before a write and is applied after it takes the
destination back to the old payload, and the last check does not see that. A point whose writes and
copies do not overlap ends up as it is at the source. -/
namespace ShardCluster

namespace FaultyStore
variable {s s' : FaultyStore} {α : Type}

/-- Calls fail openly, if they fail. -/
def Honest (s : FaultyStore) : Prop := ∀ f ∈ s.faults, f.mishap ≠ .lost

instance : Decidable s.Honest := inferInstanceAs (Decidable (∀ f ∈ s.faults, f.mishap ≠ .lost))

theorem strike_forall {P : Mishap → Prop} (call : StoreCall) (l : Location) {faults : List Fault}
    (h : ∀ f ∈ faults, P f.mishap) : (∀ f ∈ (Fault.strike call l faults).1, P f.mishap) ∧
      ∀ mishap, (Fault.strike call l faults).2 = some mishap → P mishap := by
  induction faults with
  | nil => exact ⟨nofun, nofun⟩
  | cons f rest ih =>
    obtain ⟨hf, hrest⟩ := List.forall_mem_cons.1 h
    rw [Fault.strike]
    split
    · exact ⟨List.forall_mem_cons.2 ⟨hf, hrest⟩, fun _ he => Option.some.inj he ▸ hf⟩
    · exact ⟨List.forall_mem_cons.2 ⟨hf, (ih hrest).1⟩, (ih hrest).2⟩

/-- A call of an honest store is carried out, or fails and leaves the points as they are. -/
theorem Honest.attempt (h : s.Honest) (call : StoreCall) (l : Location) (run : Store → Store × α)
    (ack : Store → α) : (s.attempt call l run ack).1.Honest ∧
      ((s.attempt call l run ack).1.store = (run s.store).1 ∧
        (s.attempt call l run ack).2 = .ok (run s.store).2 ∨
      (s.attempt call l run ack).1.store = s.store ∧
        ∃ e, (s.attempt call l run ack).2 = .error e) := by
  obtain ⟨hfaults, hstruck⟩ := strike_forall (P := (· ≠ .lost)) call l h
  cases hx : Fault.strike call l s.faults with
  | mk faults struck =>
    rw [hx] at hfaults hstruck
    cases struck with
    | none =>
      simp only [FaultyStore.attempt, hx]
      exact ⟨hfaults, .inl ⟨trivial, trivial⟩⟩
    | some mishap =>
      cases mishap with
      | lost => exact absurd rfl (hstruck .lost rfl)
      | _ =>
        simp only [FaultyStore.attempt, hx]
        exact ⟨hfaults, .inr ⟨rfl, _, rfl⟩⟩

theorem Honest.read (h : s.Honest) (call : StoreCall) (l : Location) (look : Store → α) :
    (s.read call l look).1.Honest ∧ (s.read call l look).1.store = s.store ∧
      ((s.read call l look).2 = .ok (look s.store) ∨ ∃ e, (s.read call l look).2 = .error e) := by
  obtain ⟨hs, ⟨hstore, hok⟩ | ⟨hstore, herr⟩⟩ := h.attempt call l (fun store => (store, look store)) look
  · exact ⟨hs, hstore, .inl hok⟩
  · exact ⟨hs, hstore, .inr herr⟩

end FaultyStore

/-- The next page may have the point. -/
def Checkpoint.Before (c : Checkpoint) (id : PointId) : Prop :=
  ∀ a, c.offset = some a → compare a id = .lt

namespace Task
variable {t t' : Task} {s s' : FaultyStore} {id : PointId}

/-- The point has still to be read. -/
def Before (t : Task) (id : PointId) : Prop :=
  match t.phase with
  | .fetch _ => t.checkpoint.Before id
  | .apply page _ => page.isFinal = false ∧ (t.acknowledge page).checkpoint.Before id
  | _ => False

/-- What a page that was read and is not yet applied gives to the point. -/
def carried (t : Task) (id : PointId) : Option Bytes :=
  match t.phase with
  | .apply page _ => Point.latest id (t.selected page)
  | _ => none

def Failed (t : Task) : Prop := ∃ why, t.phase = .ended (.failed why)

/-- What a step does to the points and to what is known of them. -/
inductive Stepped (t : Task) (s : Store) (t' : Task) : Store → Prop
  | failed (h : t'.Failed) : Stepped t s t' s
  | idle (hf : t.Failed → t'.Failed) (hb : ∀ id, t'.Before id ↔ t.Before id)
      (hc : ∀ id, t'.carried id = t.carried id) : Stepped t s t' s
  | fetched (hf : ¬t.Failed) (hb : ∀ id, t.carried id = none ∧ (t.Before id ↔ t.checkpoint.Before id))
      (hb' : ∀ id, t'.Before id ↔ (t.page s).isFinal = false ∧
        (t.acknowledge (t.page s)).checkpoint.Before id)
      (hc : ∀ id, t'.carried id = Point.latest id (t.selected (t.page s))) : Stepped t s t' s
  | applied (points : List Point) (hf : ¬t.Failed) (hb : ∀ id, t'.Before id ↔ t.Before id)
      (hc : ∀ id, t.carried id = Point.latest id points) (hc' : ∀ id, t'.carried id = none) :
      Stepped t s t' (s.upsert t.target points)

theorem before_acknowledge (page : Page) : (t.acknowledge page).Before id ↔
    page.isFinal = false ∧ (t.acknowledge page).checkpoint.Before id := by
  obtain ⟨hf, hphase⟩ | ⟨hf, hphase | hphase⟩ := t.acknowledge_phase page <;>
    simp [Before, hphase, hf]

theorem carried_acknowledge (page : Page) : (t.acknowledge page).carried id = none := by
  obtain ⟨-, hphase⟩ | ⟨-, hphase | hphase⟩ := t.acknowledge_phase page <;> simp [carried, hphase]

theorem carried_fetched (n : Nat) (page : Page) :
    (t.fetched n (.ok page)).carried id = Point.latest id (t.selected page) := by
  rw [fetched]
  split
  · rename_i hempty
    rw [carried_acknowledge, List.isEmpty_iff.1 hempty]
    rfl
  · rfl

theorem before_fetched (n : Nat) (page : Page) : (t.fetched n (.ok page)).Before id ↔
    page.isFinal = false ∧ (t.acknowledge page).checkpoint.Before id := by
  rw [fetched]
  split
  · exact before_acknowledge page
  · exact Iff.rfl

/-- A step that is tried again does nothing else. -/
theorem retry_cases (name : String) (n : Nat) (e : Error) (again : Nat → Phase) :
    (t.retry name n e again).Failed ∨
      ∃ k m, t.retry name n e again = { t with phase := again k, retries := m } := by
  rw [retry]
  split
  · exact .inr ⟨_, _, rfl⟩
  · exact .inl ⟨_, rfl⟩

theorem Stepped.retried {name : String} {n : Nat} {e : Error} {again : Nat → Phase} {s : Store}
    (hb : ∀ k m id, ({ t with phase := again k, retries := m } : Task).Before id ↔ t.Before id)
    (hc : ∀ k m id, ({ t with phase := again k, retries := m } : Task).carried id = t.carried id)
    (hf : ¬t.Failed) : Stepped t s (t.retry name n e again) s := by
  obtain hfailed | ⟨k, m, ht⟩ := t.retry_cases name n e again
  · exact .failed hfailed
  · rw [ht]
    exact .idle (fun h => absurd h hf) (hb k m) (hc k m)

section
variable {n : Nat} (h : s.Honest)
include h

theorem stepped_fetch (hp : t.phase = .fetch n) :
    (t.step s).2.Honest ∧ Stepped t s.store (t.step s).1 (t.step s).2.store := by
  have hnot : ¬t.Failed := by simp [Failed, hp]
  obtain ⟨hs, hstore, hreply⟩ := h.read .fetch t.source
    (·.fetch t.source t.checkpoint.offset t.config.batchSize)
  rw [step_fetch hp, FaultyStore.pointStore_fetch, FaultyStore.fetch]
  refine ⟨hs, ?_⟩
  rw [hstore]
  obtain hok | ⟨e, herr⟩ := hreply
  · rw [hok]
    exact .fetched hnot (fun id => by simp [carried, Before, hp]) (fun id => before_fetched n _)
      fun id => carried_fetched n _
  · rw [herr]
    exact .retried (fun k m id => by simp [Before, hp]) (fun k m id => by simp [carried, hp]) hnot

theorem stepped_apply {page : Page} (hp : t.phase = .apply page n) :
    (t.step s).2.Honest ∧ Stepped t s.store (t.step s).1 (t.step s).2.store := by
  have hnot : ¬t.Failed := by simp [Failed, hp]
  obtain ⟨hs, hreply⟩ := h.attempt .upsert t.target
    (fun store => (store.upsert t.target (t.selected page), ())) (fun _ => ())
  rw [step_apply hp, FaultyStore.pointStore_upsert, FaultyStore.upsert]
  refine ⟨hs, ?_⟩
  obtain ⟨hstore, hok⟩ | ⟨hstore, e, herr⟩ := hreply
  · rw [hstore, hok]
    refine .applied (t.selected page) hnot (fun id => ?_) (fun id => by simp [carried, hp])
      fun id => carried_acknowledge page
    rw [applied, before_acknowledge]
    simp [Before, hp]
  · rw [hstore, herr]
    refine .retried (fun k m id => ?_) (fun k m id => by simp [carried, hp, selected]) hnot
    simp only [Before, hp]
    exact Iff.rfl

theorem stepped_surveySource (hp : t.phase = .surveySource n) :
    (t.step s).2.Honest ∧ Stepped t s.store (t.step s).1 (t.step s).2.store := by
  have hnot : ¬t.Failed := by simp [Failed, hp]
  obtain ⟨hs, hstore, hreply⟩ := h.read .scroll t.source (·.scroll t.source t.request.slice)
  rw [step_surveySource hp, FaultyStore.pointStore_scroll, FaultyStore.scroll]
  refine ⟨hs, ?_⟩
  rw [hstore]
  obtain hok | ⟨e, herr⟩ := hreply
  · rw [hok, surveyed]
    exact .idle (fun hf => absurd hf hnot) (fun id => by simp [Before, hp])
      fun id => by simp [carried, hp]
  · rw [herr]
    exact .retried (fun k m id => by simp [Before, hp]) (fun k m id => by simp [carried, hp]) hnot

theorem stepped_surveyTarget {expected : List Point} (hp : t.phase = .surveyTarget expected n) :
    (t.step s).2.Honest ∧ Stepped t s.store (t.step s).1 (t.step s).2.store := by
  have hnot : ¬t.Failed := by simp [Failed, hp]
  obtain ⟨hs, hstore, hreply⟩ := h.read .scroll t.target (·.scroll t.target t.request.slice)
  rw [step_surveyTarget hp, FaultyStore.pointStore_scroll, FaultyStore.scroll]
  refine ⟨hs, ?_⟩
  rw [hstore]
  obtain hok | ⟨e, herr⟩ := hreply
  · rw [hok, compared]
    split
    · exact .idle (fun hf => absurd hf hnot) (fun id => by simp [Before, hp])
        fun id => by simp [carried, hp]
    · exact .failed ⟨_, rfl⟩
  · rw [herr]
    exact .retried (fun k m id => by simp [Before, hp]) (fun k m id => by simp [carried, hp]) hnot

theorem step_stepped (t : Task) :
    (t.step s).2.Honest ∧ Stepped t s.store (t.step s).1 (t.step s).2.store := by
  cases hp : t.phase with
  | fetch n => exact stepped_fetch h hp
  | apply page n => exact stepped_apply h hp
  | surveySource n => exact stepped_surveySource h hp
  | surveyTarget expected n => exact stepped_surveyTarget h hp
  | ended o =>
    rw [step_ended hp]
    exact ⟨h, .idle id (fun _ => Iff.rfl) fun _ => rfl⟩

end

/-- A page has the point, or it is still to be read after that. -/
theorem page_covers {S : Store} {x : Bytes} (hpos : 0 < t.config.batchSize)
    (ha : Slice.admits t.request.slice id = true) (hx : (S.replica t.source).get? id = some x) (hb : t.checkpoint.Before id) :
    (∃ y, Point.latest id (t.selected (t.page S)) = some y) ∨
      (t.page S).isFinal = false ∧ (t.acknowledge (t.page S)).checkpoint.Before id := by
  obtain hin | ⟨p, hlast, hmore, hlt⟩ := Store.fetch_covers hpos hx hb
  · exact .inl (Point.latest_isSome (List.mem_filter.2 ⟨hin, ha⟩))
  · refine .inr ⟨hmore, fun a hoffset => ?_⟩
    have hlast : (t.page S).points.getLast? = some p := hlast
    simp only [acknowledge, hlast, Option.some.injEq] at hoffset
    exact hoffset ▸ hlt

/-- The source stays, and the destination gets what the copy has carried. -/
theorem Stepped.held {S S' : Store} (h : Stepped t S t' S') (hne : t.source ≠ t.target)
    (id : PointId) : (S'.replica t.source).get? id = (S.replica t.source).get? id ∧
      ((S'.replica t.target).get? id = (S.replica t.target).get? id ∨
        ∃ x, t.carried id = some x ∧ (S'.replica t.target).get? id = some x) := by
  cases h with
  | failed | idle | fetched => exact ⟨rfl, .inl rfl⟩
  | applied points hf hb hc hc' =>
    refine ⟨by rw [Store.get?_upsert, if_neg hne], ?_⟩
    rw [Store.get?_upsert, if_pos rfl, hc]
    cases Point.latest id points with
    | none => exact .inl rfl
    | some x => exact .inr ⟨x, rfl, rfl⟩

/-- What a copy has passed it had passed before, or has just applied. -/
theorem Stepped.passed {S S' : Store} (h : Stepped t S t' S') (hpos : 0 < t.config.batchSize)
    (ha : Slice.admits t.request.slice id = true) {x : Bytes}
    (hx : (S.replica t.source).get? id = some x) (hf : ¬t'.Failed) (hb : ¬t'.Before id)
    (hc : t'.carried id = none) : ¬t.Failed ∧ (¬t.Before id ∧ t.carried id = none ∧
      (S'.replica t.target).get? id = (S.replica t.target).get? id ∨
      ∃ y, t.carried id = some y ∧ (S'.replica t.target).get? id = some y) := by
  cases h with
  | failed hfailed => exact absurd hfailed hf
  | idle hfail hbefore hcarried =>
    refine ⟨fun hx => hf (hfail hx), .inl ⟨fun hx => hb ((hbefore id).2 hx), ?_, rfl⟩⟩
    exact (hcarried id).symm.trans hc
  | fetched hfail hbefore hbefore' hcarried =>
    refine ⟨hfail, .inl ⟨fun hx' => ?_, (hbefore id).1, rfl⟩⟩
    obtain ⟨y, hy⟩ | hlater := page_covers hpos ha hx ((hbefore id).2.1 hx')
    · rw [hcarried, hy] at hc
      cases hc
    · exact hb ((hbefore' id).2 hlater)
  | applied points hfail hbefore hcarried hcarried' =>
    refine ⟨hfail, ?_⟩
    rw [Store.get?_upsert, if_pos rfl, hcarried]
    cases Point.latest id points with
    | none => exact .inl ⟨fun hx => hb ((hbefore id).2 hx), rfl, rfl⟩
    | some y => exact .inr ⟨y, rfl, rfl⟩

/-- A page that waits tells what the source had when it was read. -/
theorem Stepped.carries {S S' : Store} (h : Stepped t S t' S') {x : Bytes}
    (hx : t'.carried id = some x) :
    t'.Failed ∨ t.carried id = some x ∨ (S.replica t.source).get? id = some x := by
  cases h with
  | failed hfailed => exact .inl hfailed
  | idle hfail hbefore hcarried => exact .inr (.inl ((hcarried id).symm.trans hx))
  | fetched hfail hbefore hbefore' hcarried =>
    rw [hcarried] at hx
    exact .inr (.inr (Store.mem_fetch (List.mem_filter.1 (Point.mem_of_latest hx)).1))
  | applied points hfail hbefore hcarried hcarried' =>
    rw [hcarried'] at hx
    cases hx

theorem Failed.carried (h : t.Failed) (id : PointId) : t.carried id = none := by
  obtain ⟨why, h⟩ := h
  simp [Task.carried, h]

end Task

/-- A copy at work, and a client that may be in the midst of a write to both of its ends. -/
structure Stream where
  task : Task
  store : FaultyStore
  /-- The points of the client's last write. -/
  points : List Point := []
  /-- The ends that have yet to get them. -/
  todo : List Location := []

namespace Stream

def source (σ : Stream) (id : PointId) : Option Bytes :=
  (σ.store.store.replica σ.task.source).get? id

def target (σ : Stream) (id : PointId) : Option Bytes :=
  (σ.store.store.replica σ.task.target).get? id

/-- The copy takes a step. -/
def step (σ : Stream) : Stream :=
  { σ with task := (σ.task.step σ.store).1, store := (σ.task.step σ.store).2 }

/-- The client begins a write. -/
def begin (σ : Stream) (points : List Point) (todo : List Location) : Stream :=
  { σ with points, todo }

/-- The next end gets the points of the client. -/
def write (σ : Stream) : Stream :=
  match σ.todo with
  | [] => σ
  | l :: rest =>
    { σ with store := { σ.store with store := σ.store.store.upsert l σ.points }, todo := rest }

/-- The copy and the client take their steps in any order. -/
inductive Move (σ : Stream) : Stream → Prop
  | stepped : Move σ σ.step
  | begun (h : σ.todo = []) (points : List Point) (todo : List Location)
      (ht : todo = [σ.task.source, σ.task.target] ∨ todo = [σ.task.target, σ.task.source]) :
      Move σ (σ.begin points todo)
  | wrote (h : σ.todo ≠ []) : Move σ σ.write

/-- A write under way and a page that waits both have the point. -/
def Crosses (σ : Stream) (id : PointId) : Prop :=
  σ.todo ≠ [] ∧ (Point.latest id σ.points).isSome ∧ (σ.task.carried id).isSome

instance (σ : Stream) (id : PointId) : Decidable (σ.Crosses id) :=
  inferInstanceAs (Decidable (σ.todo ≠ [] ∧ _))

/-- What is known of a point in the course of a copy. `crossed` says that its writes and its copying
have overlapped. -/
structure Keeps (σ : Stream) (crossed : Prop) (id : PointId) : Prop where
  apart : ¬crossed → ¬σ.Crosses id
  /-- What the copy has passed is there, or is just being written. -/
  there : ¬σ.task.Failed → ¬σ.task.Before id → σ.task.carried id = none → (σ.source id).isSome →
    (σ.target id).isSome ∨ σ.task.target ∈ σ.todo ∧ (Point.latest id σ.points).isSome
  landed : σ.todo ≠ [] → (Point.latest id σ.points).isSome → σ.task.target ∉ σ.todo →
    (σ.target id).isSome
  written : ¬crossed → σ.todo ≠ [] → ∀ x, Point.latest id σ.points = some x →
    (σ.task.source ∉ σ.todo → σ.source id = some x) ∧
      (σ.task.target ∉ σ.todo → σ.target id = some x)
  /-- Between writes the two ends agree on what the copy has passed. -/
  same : ¬crossed → σ.todo = [] ∨ Point.latest id σ.points = none → ¬σ.task.Failed →
    ¬σ.task.Before id → σ.task.carried id = none → ∀ x, σ.source id = some x → σ.target id = some x
  carries : ¬crossed → ∀ x, σ.task.carried id = some x → σ.source id = some x

section
variable {σ σ' : Stream} {crossed : Prop} {id : PointId}

theorem crosses_of {x y : Bytes} (ho : σ.todo ≠ []) (hx : Point.latest id σ.points = some x)
    (hy : σ.task.carried id = some y) : σ.Crosses id :=
  ⟨ho, by rw [hx]; rfl, by rw [hy]; rfl⟩

theorem Keeps.mono (h : σ.Keeps crossed id) {crossed' : Prop} (hmono : crossed → crossed') :
    σ.Keeps crossed' id where
  apart hc := h.apart fun hx => hc (hmono hx)
  there := h.there
  landed := h.landed
  written hc := h.written fun hx => hc (hmono hx)
  same hc := h.same fun hx => hc (hmono hx)
  carries hc := h.carries fun hx => hc (hmono hx)

theorem Keeps.step (h : σ.Keeps crossed id) (hs : σ.store.Honest) (hpos : 0 < σ.task.config.batchSize)
    (hne : σ.task.source ≠ σ.task.target) (ha : Slice.admits σ.task.request.slice id = true)
    (hcross : ¬crossed → ¬σ.step.Crosses id) : σ.step.Keeps crossed id := by
  obtain ⟨hrequest, -⟩ := σ.task.step_same σ.store
  have hends : σ.step.task.source = σ.task.source ∧ σ.step.task.target = σ.task.target := by
    simp only [Stream.step, Task.source, Task.target, hrequest, and_self]
  have hstep : σ.task.Stepped σ.store.store σ.step.task σ.step.store.store :=
    (Task.step_stepped hs σ.task).2
  have hsource : σ.step.source id = σ.source id := by
    rw [source, hends.1]
    exact (hstep.held hne id).1
  have htarget : σ.step.target id =
      (σ.step.store.store.replica σ.task.target).get? id := by rw [target, hends.2]
  obtain ⟨-, hheld⟩ := hstep.held hne id
  have hgrows : (σ.target id).isSome → ((σ.step.store.store.replica σ.task.target).get? id).isSome := by
    intro hx
    obtain hkept | ⟨x, -, hx'⟩ := hheld
    · rw [hkept]
      exact hx
    · rw [hx']
      rfl
  refine ⟨hcross, fun hf hb hc hx => ?_, fun ho hl hn => ?_, fun hc ho x hx => ⟨fun hn => ?_, fun hn => ?_⟩,
    fun hc ho hf hb hcarried x hx => ?_, fun hc x hx => ?_⟩
  · rw [hsource] at hx
    rw [htarget, hends.2]
    obtain ⟨x, hx⟩ := Option.isSome_iff_exists.1 hx
    obtain ⟨hf, ⟨hb, hc, -⟩ | ⟨y, -, hy⟩⟩ := hstep.passed hpos ha hx hf hb hc
    · exact (h.there hf hb hc (by rw [hx]; rfl)).imp_left hgrows
    · exact .inl (by rw [hy]; rfl)
  · rw [htarget]
    exact hgrows (h.landed ho hl fun hin => hn (hends.2 ▸ hin))
  · rw [hsource]
    exact (h.written hc ho x hx).1 fun hin => hn (hends.1 ▸ hin)
  · rw [htarget]
    have hold := (h.written hc ho x hx).2 fun hin => hn (hends.2 ▸ hin)
    obtain hkept | ⟨y, hy, -⟩ := hheld
    · exact hkept.trans hold
    · exact absurd (crosses_of (σ := σ) ho hx hy) (h.apart hc)
  · rw [hsource] at hx
    rw [htarget]
    obtain ⟨hf, ⟨hb, hnone, hkept⟩ | ⟨y, hy, hy'⟩⟩ := hstep.passed hpos ha hx hf hb hcarried
    · exact hkept.trans (h.same hc ho hf hb hnone x hx)
    · exact hy'.trans ((h.carries hc y hy).symm.trans hx)
  · rw [hsource]
    obtain hfailed | hold | hread := hstep.carries hx
    · cases (hfailed.carried id).symm.trans hx
    · exact h.carries hc x hold
    · exact hread

theorem Keeps.begin (h : σ.Keeps crossed id) (hnil : σ.todo = []) {points : List Point}
    {todo : List Location} (ht : ∀ l, l ∈ todo ↔ l = σ.task.source ∨ l = σ.task.target)
    (hcross : ¬crossed → ¬(σ.begin points todo).Crosses id) : (σ.begin points todo).Keeps crossed id := by
  have hsource : σ.task.source ∈ todo := (ht _).2 (.inl rfl)
  have htarget : σ.task.target ∈ todo := (ht _).2 (.inr rfl)
  refine ⟨hcross, fun hf hb hc hx => ?_, fun _ _ hn => absurd htarget hn,
    fun _ _ _ _ => ⟨fun hn => absurd hsource hn, fun hn => absurd htarget hn⟩,
    fun hc _ => h.same hc (.inl hnil), h.carries⟩
  obtain hthere | ⟨hin, -⟩ := h.there hf hb hc hx
  · exact .inl hthere
  · rw [hnil] at hin
    cases hin

section
variable {l : Location} {rest : List Location}

/-- An end has got the points of the client, and the others are still to come. -/
def put (σ : Stream) (l : Location) (rest : List Location) : Stream :=
  { σ with store := { σ.store with store := σ.store.store.upsert l σ.points }, todo := rest }

theorem write_eq (htodo : σ.todo = l :: rest) : σ.write = σ.put l rest := by
  rw [Stream.write, htodo, put]

theorem source_put (σ : Stream) (l : Location) (rest : List Location) (id : PointId) :
    (σ.put l rest).source id = if σ.task.source = l
      then (Point.latest id σ.points).or (σ.source id) else σ.source id :=
  Store.get?_upsert _ _ _ _ _

theorem target_put (σ : Stream) (l : Location) (rest : List Location) (id : PointId) :
    (σ.put l rest).target id = if σ.task.target = l
      then (Point.latest id σ.points).or (σ.target id) else σ.target id :=
  Store.get?_upsert _ _ _ _ _

/-- The write does not concern the point. -/
theorem Keeps.put_apart (h : σ.Keeps crossed id) (hlatest : Point.latest id σ.points = none)
    (hcross : ¬crossed → ¬(σ.put l rest).Crosses id) : (σ.put l rest).Keeps crossed id := by
  have hsource : (σ.put l rest).source id = σ.source id := by
    rw [source_put, hlatest, Option.none_or, ite_self]
  have htarget : (σ.put l rest).target id = σ.target id := by
    rw [target_put, hlatest, Option.none_or, ite_self]
  have hnone : ¬(Point.latest id (σ.put l rest).points).isSome := by simp [put, hlatest]
  refine ⟨hcross, fun hf hb hc hx => ?_, fun _ hx => absurd hx hnone, fun _ _ x hx => ?_,
    fun hc _ hf hb hcarried x hx => ?_, fun hc x hx => ?_⟩
  · rw [hsource] at hx
    rw [htarget]
    exact (h.there hf hb hc hx).imp_right fun hx => absurd hx.2 (by simp [hlatest])
  · exact absurd (by rw [hx]; rfl) hnone
  · rw [hsource] at hx
    rw [htarget]
    exact h.same hc (.inr hlatest) hf hb hcarried x hx
  · rw [hsource]
    exact h.carries hc x hx

/-- The write brings the point. -/
theorem Keeps.put_onto (h : σ.Keeps crossed id) (htodo : σ.todo = l :: rest) {x : Bytes}
    (hlatest : Point.latest id σ.points = some x)
    (hcross : ¬crossed → ¬(σ.put l rest).Crosses id) : (σ.put l rest).Keeps crossed id := by
  have hopen : σ.todo ≠ [] := by simp [htodo]
  have hin : ∀ l', l' ∉ rest → l' = l ∨ l' ∉ σ.todo := fun l' hn => by
    rw [htodo, List.mem_cons, not_or]
    exact (Classical.em (l' = l)).imp_right fun he => ⟨he, hn⟩
  have hsource := σ.source_put l rest id
  have htarget := σ.target_put l rest id
  rw [hlatest, Option.some_or] at hsource htarget
  have hlands : σ.task.target ∉ rest → ((σ.put l rest).target id).isSome := fun hn => by
    rw [htarget]
    obtain he | hn := hin _ hn
    · rw [if_pos he]
      rfl
    · split
      · rfl
      · exact h.landed hopen (by rw [hlatest]; rfl) hn
  have hboth : ¬crossed → (σ.task.source ∉ rest → (σ.put l rest).source id = some x) ∧
      (σ.task.target ∉ rest → (σ.put l rest).target id = some x) := by
    intro hc
    obtain ⟨hs, ht⟩ := h.written hc hopen x hlatest
    rw [hsource, htarget]
    refine ⟨fun hn => ?_, fun hn => ?_⟩
    · obtain he | hn := hin _ hn
      · rw [if_pos he]
      · rw [hs hn, ite_self]
    · obtain he | hn := hin _ hn
      · rw [if_pos he]
      · rw [ht hn, ite_self]
  refine ⟨hcross, fun hf hb hc hx => ?_, fun _ _ hn => hlands hn, fun hc _ y hy => ?_,
    fun hc ho hf hb hcarried y hy => ?_, fun hc y hy => ?_⟩
  · by_cases hn : σ.task.target ∈ rest
    · exact .inr ⟨hn, Option.isSome_iff_exists.2 ⟨x, hlatest⟩⟩
    · exact .inl (hlands hn)
  · obtain rfl := Option.some.inj (hlatest.symm.trans hy)
    exact hboth hc
  · obtain hrest | hnone := ho
    · have hrest : rest = [] := hrest
      obtain ⟨hs, ht⟩ := hboth hc
      rw [hrest] at hs ht
      exact (ht List.not_mem_nil).trans ((hs List.not_mem_nil).symm.trans hy)
    · cases hlatest.symm.trans hnone
  · exact absurd (crosses_of hopen hlatest hy) (h.apart hc)

end

theorem Keeps.write (h : σ.Keeps crossed id) (hopen : σ.todo ≠ [])
    (hcross : ¬crossed → ¬σ.write.Crosses id) : σ.write.Keeps crossed id := by
  obtain ⟨l, rest, htodo⟩ := List.exists_cons_of_ne_nil hopen
  rw [write_eq htodo] at hcross ⊢
  cases hlatest : Point.latest id σ.points with
  | none => exact h.put_apart hlatest hcross
  | some x => exact h.put_onto htodo hlatest hcross

theorem Keeps.move (h : σ.Keeps crossed id) (hs : σ.store.Honest) (hpos : 0 < σ.task.config.batchSize)
    (hne : σ.task.source ≠ σ.task.target) (ha : Slice.admits σ.task.request.slice id = true)
    (hm : σ.Move σ') : σ'.Keeps (crossed ∨ σ'.Crosses id) id := by
  have h' : σ.Keeps (crossed ∨ σ'.Crosses id) id := h.mono .inl
  have hcross : ¬(crossed ∨ σ'.Crosses id) → ¬σ'.Crosses id := fun hn hx => hn (.inr hx)
  cases hm with
  | stepped => exact h'.step hs hpos hne ha hcross
  | begun hnil points todo ht =>
    refine h'.begin hnil (fun l => ?_) hcross
    obtain rfl | rfl := ht
    · simp
    · simp [or_comm]
  | wrote hopen => exact h'.write hopen hcross

/-- No move changes what is asked of the copy, or makes the store lie. -/
theorem Move.same (hm : σ.Move σ') (hs : σ.store.Honest) :
    σ'.task.request = σ.task.request ∧ σ'.task.config = σ.task.config ∧ σ'.store.Honest := by
  cases hm with
  | stepped =>
    obtain ⟨hrequest, hconfig⟩ := σ.task.step_same σ.store
    exact ⟨hrequest, hconfig, (Task.step_stepped hs σ.task).1⟩
  | begun => exact ⟨rfl, rfl, hs⟩
  | wrote hopen =>
    obtain ⟨l, rest, htodo⟩ := List.exists_cons_of_ne_nil hopen
    rw [Stream.write, htodo]
    exact ⟨rfl, rfl, hs⟩

end
end Stream

/-- The course of a copy, step by step, with the points of which a write and the copying have
overlapped up to then. -/
inductive Streamed (c : CopyRequest) (config : CopyConfig) (s : FaultyStore) :
    Stream → (PointId → Prop) → Prop
  | start : Streamed c config s { task := { request := c, config }, store := s } fun _ => False
  | move {σ σ' : Stream} {crossed : PointId → Prop} (h : Streamed c config s σ crossed)
      (hm : σ.Move σ') : Streamed c config s σ' fun id => crossed id ∨ σ'.Crosses id

section
variable {c : CopyRequest} {config : CopyConfig} {s : FaultyStore} {σ : Stream}
  {crossed : PointId → Prop} {id : PointId}

theorem Streamed.keeps (hs : s.Honest) (hpos : 0 < config.batchSize)
    (hne : c.key.sourceLocation c.collection ≠ c.key.targetLocation c.collection)
    (ha : Slice.admits c.slice id = true) (h : Streamed c config s σ crossed) :
    σ.task.request = c ∧ σ.task.config = config ∧ σ.store.Honest ∧ σ.Keeps (crossed id) id := by
  induction h with
  | start =>
    refine ⟨rfl, rfl, hs, fun _ hx => hx.1 rfl, fun _ hb => ?_, fun hx => absurd rfl hx,
      fun _ hx => absurd rfl hx, fun _ _ _ hb => ?_, nofun⟩
    · exact absurd (fun _ hx => by cases hx) hb
    · exact absurd (fun _ hx => by cases hx) hb
  | move _ hm ih =>
    obtain ⟨hrequest, hconfig, hs, hk⟩ := ih
    obtain ⟨hrequest', hconfig', hs'⟩ := hm.same hs
    refine ⟨hrequest'.trans hrequest, hconfig'.trans hconfig, hs', hk.move hs ?_ ?_ ?_ hm⟩
    · rw [hconfig]
      exact hpos
    · rw [Task.source, Task.target, hrequest]
      exact hne
    · rw [hrequest]
      exact ha

/-- At the end of a copy the destination has all points that were selected. A point whose writes and
copying have not overlapped is there with the payload that it has at the source. -/
theorem streamed_copied (hs : s.Honest) (hpos : 0 < config.batchSize)
    (hne : c.key.sourceLocation c.collection ≠ c.key.targetLocation c.collection)
    (h : Streamed c config s σ crossed) (hend : σ.task.outcome? = some .finished)
    (hdone : σ.todo = []) {x : Bytes} (ha : Slice.admits c.slice id = true)
    (hx : σ.source id = some x) :
    (∃ y, σ.target id = some y) ∧ (¬crossed id → σ.target id = some x) := by
  obtain ⟨-, -, -, hk⟩ := h.keeps hs hpos hne ha
  have hphase : σ.task.phase = .ended .finished := by
    cases hp : σ.task.phase with
    | ended o => simpa [Task.outcome?, hp] using hend
    | _ => simp [Task.outcome?, hp] at hend
  have hf : ¬σ.task.Failed := by simp [Task.Failed, hphase]
  have hb : ¬σ.task.Before id := by simp [Task.Before, hphase]
  have hc : σ.task.carried id = none := by simp [Task.carried, hphase]
  refine ⟨?_, fun hcrossed => hk.same hcrossed (.inl hdone) hf hb hc x hx⟩
  obtain hthere | ⟨hin, -⟩ := hk.there hf hb hc (by rw [hx]; rfl)
  · exact Option.isSome_iff_exists.1 hthere
  · rw [hdone] at hin
    cases hin

end

namespace Stream

/-- A copy from a shard that goes to one that stays. The first try to write a page fails. -/
def moving : Stream where
  task := { request := ⟨"points", ⟨1, 0, 1, 2⟩, 1, some ⟨.ofShards 1 [0], 0⟩⟩, config := default }
  store := ⟨Store.upsert {} ⟨"points", 1, 1⟩ [⟨.num 1, [1]⟩, ⟨.num 2, [1]⟩],
    [{ call := .upsert, mishap := .unavailable }]⟩

/-- The page is read, the client writes its point anew to both ends, and the page is applied. -/
def overtaken : Stream :=
  (moving.step.begin [⟨.num 1, [2]⟩] [moving.task.source, moving.task.target]).write.write
    |>.step.step.step.step

/-- The client has written to the destination when the page is read and applied, and comes to the
source after that. -/
def straddled : Stream :=
  (moving.begin [⟨.num 1, [2]⟩] [moving.task.target, moving.task.source]).write.step.step.step.write
    |>.step.step

/-- What a run of the copy is, up to a state. -/
abbrev Moved (σ : Stream) (crossed : PointId → Prop) : Prop :=
  Streamed moving.task.request default moving.store σ crossed

theorem moved_overtaken : ∃ crossed, Moved overtaken crossed ∧ ¬crossed (.num 2) := by
  have hstart : Moved moving _ := .start
  have hread := hstart.move .stepped
  have hwritten := ((hread.move (.begun rfl [⟨.num 1, [2]⟩] _ (.inl rfl))).move
    (.wrote (by decide +kernel))).move (.wrote (by decide +kernel))
  have hended := (((hwritten.move .stepped).move .stepped).move .stepped).move .stepped
  exact ⟨_, hended, by decide +kernel⟩

theorem moved_straddled : ∃ crossed, Moved straddled crossed := by
  have hstart : Moved moving _ := .start
  have hhalf := (hstart.move (.begun rfl [⟨.num 1, [2]⟩] _ (.inr rfl))).move
    (.wrote (by decide +kernel))
  have hread := ((hhalf.move .stepped).move .stepped).move .stepped
  exact ⟨_, ((hread.move (.wrote (by decide +kernel))).move .stepped).move .stepped⟩

/-- The point that is not written on the way is as it is at the source. -/
theorem copied_overtaken : ∃ crossed, Moved overtaken crossed ∧ ¬crossed (.num 2) ∧
    overtaken.source (.num 2) = some [1] ∧ overtaken.target (.num 2) = some [1] := by
  obtain ⟨crossed, hmoved, hcrossed⟩ := moved_overtaken
  have hsource : overtaken.source (.num 2) = some [1] := by decide +kernel
  exact ⟨crossed, hmoved, hcrossed, hsource, (streamed_copied (by decide +kernel) (by decide)
    (by decide +kernel) hmoved (by decide +kernel) (by decide +kernel) (by decide +kernel) hsource).2 hcrossed⟩

/-- The copy has ended and was found complete, and the point that was written on the way has its
old payload at the destination. -/
def Stale (σ : Stream) : Prop :=
  (∃ crossed, Moved σ crossed) ∧ σ.task.config.verify = true ∧
    σ.task.outcome? = some .finished ∧ σ.todo = [] ∧
    Slice.admits σ.task.request.slice (.num 1) = true ∧
    σ.source (.num 1) = some [2] ∧ σ.target (.num 1) = some [1]

theorem stale_after_copy : overtaken.Stale ∧ straddled.Stale := by
  obtain ⟨crossed, hmoved, -⟩ := moved_overtaken
  exact ⟨⟨⟨crossed, hmoved⟩, by decide +kernel⟩, moved_straddled, by decide +kernel⟩

end Stream
end ShardCluster
