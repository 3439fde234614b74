import ShardCluster.Proofs.ReplicaTable.Layout
import ShardCluster.Proofs.Router.Phases
/-! What one collection has of a cluster, and what effects mean for it. -/
namespace ShardCluster

/-- The part of a cluster that concerns one collection. -/
structure Face where
  collection : Option Collection
  operation : Option Operation
  look : Layout

/-- What effects do to the copies and the points of one collection. -/
structure Wake where
  /-- The copies that end. -/
  ends : TransferKey → Prop
  /-- The points that go, by replica. -/
  wipes : ShardId → PeerId → PointId → Prop
  /-- The copies that start, in order. -/
  starts : List CopyRequest

namespace Wake

def still : Wake := ⟨fun _ => False, fun _ _ _ => False, []⟩

def append (w w' : Wake) : Wake :=
  ⟨fun k => w.ends k ∨ w'.ends k, fun q p id => w.wipes q p id ∨ w'.wipes q p id,
    w.starts ++ w'.starts⟩

instance : Append Wake := ⟨append⟩

theorem ext_iff {w w' : Wake} (he : ∀ k, w.ends k ↔ w'.ends k)
    (hw : ∀ q p id, w.wipes q p id ↔ w'.wipes q p id) (hs : w.starts = w'.starts) : w = w' := by
  obtain ⟨ends, wipes, starts⟩ := w
  obtain ⟨ends', wipes', starts'⟩ := w'
  obtain rfl : ends = ends' := funext fun k => propext (he k)
  obtain rfl : wipes = wipes' := funext fun q => funext fun p => funext fun id => propext (hw q p id)
  obtain rfl : starts = starts' := hs
  rfl

theorem congr {ends ends' : TransferKey → Prop} {wipes wipes' : ShardId → PeerId → PointId → Prop}
    {starts starts' : List CopyRequest} (he : ∀ k, ends k ↔ ends' k)
    (hw : ∀ q p id, wipes q p id ↔ wipes' q p id) (hs : starts = starts') :
    (⟨ends, wipes, starts⟩ : Wake) = ⟨ends', wipes', starts'⟩ :=
  ext_iff he hw hs

theorem append_def (w w' : Wake) : w ++ w' =
    ⟨fun k => w.ends k ∨ w'.ends k, fun q p id => w.wipes q p id ∨ w'.wipes q p id,
      w.starts ++ w'.starts⟩ := rfl

theorem append_assoc (w w' w'' : Wake) : w ++ w' ++ w'' = w ++ (w' ++ w'') := by
  simp only [append_def, List.append_assoc, or_assoc]

@[simp] theorem append_still (w : Wake) : w ++ still = w := by
  apply ext_iff <;> simp [append_def, still]

@[simp] theorem still_append (w : Wake) : still ++ w = w := by
  apply ext_iff <;> simp [append_def, still]

end Wake

namespace Effects

def wake (e : Effects) (name : String) : Wake where
  ends k := (name, k) ∈ e.cancel ∨ ∃ t, (name, t) ∈ e.completed ∧ t.key = k
  wipes q p id := .drop ⟨name, p, q⟩ ∈ e.cleanup ∨
    ∃ s, .delete ⟨name, p, q⟩ s ∈ e.cleanup ∧ s.selects id = true
  starts := e.spawn.filter (·.collection == name)

variable (n : String)

theorem append_def (e e' : Effects) : e ++ e' = e.append e' := rfl

theorem wake_append (e e' : Effects) : (e ++ e').wake n = e.wake n ++ e'.wake n := by
  apply Wake.ext_iff
  · intro k
    simp only [wake, append_def, append, Wake.append_def, List.mem_append]
    constructor
    · intro h
      obtain (h | h) | ⟨t, h | h, hk⟩ := h
      · exact .inl (.inl h)
      · exact .inr (.inl h)
      · exact .inl (.inr ⟨t, h, hk⟩)
      · exact .inr (.inr ⟨t, h, hk⟩)
    · intro h
      obtain (h | ⟨t, h, hk⟩) | h | ⟨t, h, hk⟩ := h
      · exact .inl (.inl h)
      · exact .inr ⟨t, .inl h, hk⟩
      · exact .inl (.inr h)
      · exact .inr ⟨t, .inr h, hk⟩
  · intro q p id
    simp only [wake, append_def, append, Wake.append_def, List.mem_append]
    constructor
    · intro h
      obtain (h | h) | ⟨s, h | h, hs⟩ := h
      · exact .inl (.inl h)
      · exact .inr (.inl h)
      · exact .inl (.inr ⟨s, h, hs⟩)
      · exact .inr (.inr ⟨s, h, hs⟩)
    · intro h
      obtain (h | ⟨s, h, hs⟩) | h | ⟨s, h, hs⟩ := h
      · exact .inl (.inl h)
      · exact .inr ⟨s, .inl h, hs⟩
      · exact .inl (.inr h)
      · exact .inr ⟨s, .inr h, hs⟩
  · simp [wake, append_def, append, Wake.append_def]

/-- Events and counts leave no trace in a collection. -/
theorem wake_still {e : Effects} (hc : e.cancel = []) (hl : e.cleanup = []) (hs : e.spawn = [])
    (hd : e.completed = []) : e.wake n = .still := by
  apply Wake.ext_iff <;> simp [wake, Wake.still, hc, hl, hs, hd]

/-- Copies of one collection that start. -/
theorem wake_spawning {e : Effects} (name : String) (hc : e.cancel = []) (hl : e.cleanup = [])
    (hd : e.completed = []) (hs : ∀ x ∈ e.spawn, x.collection = name) :
    e.wake name = ⟨fun _ => False, fun _ _ _ => False, e.spawn⟩ ∧
      ∀ n, n ≠ name → e.wake n = .still := by
  constructor
  · refine Wake.congr (fun k => by simp [hc, hd]) (fun q p id => by simp [hl]) ?_
    exact List.filter_eq_self.2 fun x hx => by simpa using hs x hx
  · intro n hn
    refine Wake.congr (fun k => by simp [hc, hd]) (fun q p id => by simp [hl]) ?_
    exact List.filter_eq_nil_iff.2 fun x hx => by simpa [hs x hx] using hn.symm

/-- A transfer that leaves the table by a report. -/
theorem wake_completed (name : String) (t : Transfer) :
    (⟨[], [], [], [], [], [], [], [(name, t)]⟩ : Effects).wake name =
      ⟨(t.key = ·), fun _ _ _ => False, []⟩ ∧
    ∀ n, n ≠ name → (⟨[], [], [], [], [], [], [], [(name, t)]⟩ : Effects).wake n = .still := by
  constructor
  · exact Wake.congr (fun k => by simp) (fun q p id => by simp) rfl
  · intro n hn
    exact Wake.congr (fun k => by simp [hn]) (fun q p id => by simp) rfl

section
variable {name : String} {ts : List Transfer} {rs : List Replica} {slice : Slice}

theorem wake_cancelling : (cancelling name ts).wake name =
    ⟨fun k => ∃ t ∈ ts, t.key = k, fun _ _ _ => False, []⟩ := by
  apply Wake.ext_iff <;> simp [wake, cancelling]

theorem wake_dropping : (dropping name rs).wake name =
    ⟨fun _ => False, fun q p _ => ∃ r ∈ rs, r.shard = q ∧ r.peer = p, []⟩ := by
  apply Wake.ext_iff <;> simp [wake, dropping, Replica.location, and_comm]

theorem wake_deleting : (deleting name slice rs).wake name = ⟨fun _ => False,
    fun q p id => (∃ r ∈ rs, r.shard = q ∧ r.peer = p) ∧ slice.selects id = true, []⟩ := by
  apply Wake.ext_iff
  · simp [wake, deleting]
  · intro q p id
    simp only [wake, deleting, Replica.location, List.mem_map, reduceCtorEq, and_false, exists_false,
      false_or, Cleanup.delete.injEq, Location.mk.injEq, true_and]
    constructor
    · intro h
      obtain ⟨s, ⟨r, hr, ⟨rfl, rfl⟩, rfl⟩, hs⟩ := h
      exact ⟨⟨r, hr, rfl, rfl⟩, hs⟩
    · intro h
      obtain ⟨⟨r, hr, rfl, rfl⟩, hs⟩ := h
      exact ⟨slice, ⟨r, hr, ⟨rfl, rfl⟩, rfl⟩, hs⟩
  · simp [wake, deleting]

variable {n} (hn : n ≠ name)
include hn

theorem wake_cancelling_of_ne : (cancelling name ts).wake n = .still := by
  apply Wake.ext_iff <;> simp [wake, cancelling, Wake.still, hn.symm]

theorem wake_dropping_of_ne : (dropping name rs).wake n = .still := by
  apply Wake.ext_iff <;> simp [wake, dropping, Replica.location, Wake.still, hn.symm]

theorem wake_deleting_of_ne : (deleting name slice rs).wake n = .still := by
  apply Wake.ext_iff <;> simp [wake, deleting, Replica.location, Wake.still, hn.symm]

end

/-- What a deletion asks for past the rollbacks, all of it of one collection. -/
theorem wake_deletion (e : Effects) (name : String) (ts : List Transfer) (rs : List Replica)
    (events : List TopologyEvent) :
    (e ++ cancelling name ts ++ dropping name rs ++ { events }).wake n = e.wake n ++
      if n = name then
        ⟨fun k => ∃ t ∈ ts, t.key = k, fun q p _ => ∃ r ∈ rs, r.shard = q ∧ r.peer = p, []⟩
      else .still := by
  rw [wake_append, wake_append, wake_append, wake_still (e := { events }) n rfl rfl rfl rfl,
    Wake.append_still, Wake.append_assoc]
  by_cases hn : n = name
  · subst hn
    rw [if_pos rfl, wake_cancelling, wake_dropping]
    refine congrArg _ (Wake.ext_iff (fun k => ?_) (fun q p id => ?_) rfl)
    · exact iff_of_eq (or_false _)
    · exact iff_of_eq (false_or _)
  · rw [if_neg hn, wake_cancelling_of_ne hn, wake_dropping_of_ne hn, Wake.append_still]

end Effects
end ShardCluster
