import ShardCluster.Proofs.Router.Serving
/-! The rings of a group under calls that come in any order. The ring that a change leads to differs
from the old one in the shard of the change alone, and the slice of that shard has the points that
move. Shards may claim each other's positions. -/
namespace ShardCluster

/-- Rings that are made of an empty one, shard by shard. -/
inductive Ring.Built : Ring → Prop
  | empty (perShard : Nat) : Built (.empty perShard)
  | add {r : Ring} (h : Built r) (shard : ShardId) : Built (r.add shard)
  | remove {r : Ring} (h : Built r) (shard : ShardId) : Built (r.remove shard)

theorem Ring.Built.owned {r : Ring} (h : r.Built) : r.Owned := by
  induction h with
  | empty n => exact .empty n
  | add _ s ih => exact ih.add s
  | remove _ s ih => exact ih.remove s

/-- The shard that comes or goes. -/
def RingChange.shard : RingChange → ShardId
  | add s | remove s => s

/-- What is asked of the rings of a group. -/
inductive RouterCall where
  | start (change : RingChange)
  | commitRead | commitWrite | finish | abort
  deriving DecidableEq, Repr

namespace RouterCall

/-- The change in flight after an accepted call, given the one before it. -/
def leaves (before : Option RingChange) : RouterCall → Option RingChange
  | start change => some change
  | commitRead | commitWrite => before
  | finish | abort => none

end RouterCall

namespace Router
variable {r r' : Router} {ring ring' : Ring} {change : RingChange} {x : Option RingChange}
  {call : RouterCall} {id : PointId} {s : ShardId}

def answer (r : Router) : RouterCall → Except Error Router
  | .start change => r.start change
  | .commitRead => r.commitRead
  | .commitWrite => r.commitWrite
  | .finish => r.finish
  | .abort => .ok r.abort

/-- Accepted calls from a single ring on, with the change that they leave in flight. A refused call
leaves everything as it is. -/
inductive Called : Option RingChange → Router → Prop
  | single {ring : Ring} (h : ring.Built) : Called none (.single ring)
  | call {x : Option RingChange} {r r' : Router} (h : Called x r) (call : RouterCall)
      (hr : r.answer call = .ok r') : Called (call.leaves x) r'

/-- A change adds a shard that is not on the ring, or removes one that is. -/
theorem changed_cases (h : changed ring change = .ok ring') :
    (∃ s, change = .add s ∧ ring.contains s = false ∧ ring' = ring.add s) ∨
    ∃ s, change = .remove s ∧ ring.contains s = true ∧ ring' = ring.remove s := by
  cases change with
  | add s =>
    simp only [changed, ite_eq_ok, error_eq_ok, and_false, false_or, Except.ok.injEq] at h
    exact .inl ⟨s, rfl, by simpa using h.1, h.2.symm⟩
  | remove s =>
    simp only [changed, ite_eq_ok, error_eq_ok, and_false, false_or, Except.ok.injEq] at h
    exact .inr ⟨s, rfl, by simpa using h.1, h.2.2.symm⟩

theorem changed_owned (ho : ring.Owned) (h : changed ring change = .ok ring') : ring'.Owned := by
  obtain ⟨s, -, -, rfl⟩ | ⟨s, -, -, rfl⟩ := changed_cases h
  · exact ho.add s
  · exact ho.remove s

/-- The second ring is there while a change is in flight, and is the first one changed. -/
structure Turning (r : Router) (x : Option RingChange) : Prop where
  owned : r.old.ring.Owned
  resharding : r.resharding = x.isSome
  changed : ∀ change, x = some change → Router.changed r.old.ring change = .ok r.target.ring

theorem Turning.start (h : r.Turning x) (hr : r.start change = .ok r') : r'.Turning (some change) := by
  obtain ⟨-, ring, hc, rfl⟩ := start_eq_ok.1 hr
  exact ⟨h.owned, rfl, fun _ he => Option.some.inj he ▸ hc⟩

/-- The rings for reads and writes do not matter. -/
theorem Turning.congr (h : r.Turning x) (ho : r'.old = r.old) (hn : r'.new = r.new) : r'.Turning x := by
  have ht : r'.target = r.target := by rw [target, target, hn, ho]
  refine ⟨ho ▸ h.owned, ?_, fun change hx => ?_⟩
  · rw [Router.resharding, hn]
    exact h.resharding
  · rw [ho, ht]
    exact h.changed change hx

theorem Turning.target_owned (h : r.Turning x) : r.target.ring.Owned := by
  cases x with
  | some change => exact changed_owned h.owned (h.changed change rfl)
  | none =>
    have hnone : r.new = none := by simpa [Router.resharding] using h.resharding
    rw [target, hnone]
    exact h.owned

theorem Turning.finish (h : r.Turning x) (hr : r.finish = .ok r') : r'.Turning none := by
  obtain ⟨new, hn, rfl⟩ := finish_eq_ok.1 hr
  have ht : r.target = new := by rw [target, hn, Option.getD_some]
  exact ⟨ht ▸ h.target_owned, rfl, fun _ hx => by cases hx⟩

theorem Turning.answer (h : r.Turning x) (hr : r.answer call = .ok r') : r'.Turning (call.leaves x) := by
  cases call with
  | start change => exact h.start hr
  | commitRead =>
    obtain ⟨ho, hn⟩ := commitRead_rings hr
    exact h.congr ho hn
  | commitWrite =>
    obtain ⟨ho, hn⟩ := commitWrite_rings hr
    exact h.congr ho hn
  | finish => exact h.finish hr
  | abort =>
    obtain rfl := Except.ok.inj hr
    exact ⟨h.owned, rfl, fun _ hx => by cases hx⟩

theorem Called.turning (h : Called x r) : r.Turning x := by
  induction h with
  | single h => exact ⟨h.owned, rfl, fun _ hx => by cases hx⟩
  | call _ _ hr ih => exact ih.answer hr

/-- The points that a change in flight moves. -/
structure Moves (r : Router) (change : RingChange) : Prop where
  /-- They are those of the shard that comes or goes. -/
  slice : ∀ id, r.routeOld id ≠ r.routeNew id ↔ (r.slice change.shard).selects id = true
  added : ∀ s, change = .add s → r.slice s = r.targetSlice s ∧
    ∀ id, r.routeOld id ≠ r.routeNew id ↔ r.routeNew id = some s
  removed : ∀ s, change = .remove s → ∀ id,
    (r.routeOld id ≠ r.routeNew id ↔ r.routeOld id = some s) ∧ r.routeNew id ≠ some s

theorem selects_slice : (Slice.mk ring s).selects id = true ↔ ring.route id = some s := by
  rw [Slice.selects, beq_iff_eq]

/-- The larger ring is the one with the shard that comes. -/
theorem slice_of_add (hn : r.new.isSome) (hs : r.old.ring.contains s = false)
    (ht : r.target.ring = r.old.ring.add s) : r.slice s = r.targetSlice s := by
  obtain ⟨new, hn⟩ := Option.isSome_iff_exists.1 hn
  rw [target, hn, Option.getD_some] at ht
  have hsize : r.old.ring.size < new.ring.size := by
    rw [ht, Ring.size_add hs]
    exact Nat.lt_succ_self _
  simp only [Router.slice, targetSlice, target, hn, if_pos hsize, Option.getD_some]

/-- The larger ring is the one with the shard that goes. -/
theorem slice_of_remove (hn : r.new.isSome) (ht : r.target.ring = r.old.ring.remove s) :
    r.slice s = ⟨r.old.ring, s⟩ := by
  obtain ⟨new, hn⟩ := Option.isSome_iff_exists.1 hn
  rw [target, hn, Option.getD_some] at ht
  have hsize : ¬r.old.ring.size < new.ring.size := by
    rw [ht]
    exact Nat.not_lt_of_le (Ring.size_remove_le r.old.ring s)
  simp only [Router.slice, hn, if_neg hsize]

theorem moves_added (ho : r.old.ring.Owned) (hn : r.new.isSome) (hs : r.old.ring.contains s = false)
    (ht : r.target.ring = r.old.ring.add s) : r.Moves (.add s) := by
  have hmoved : ∀ id, r.routeOld id ≠ r.routeNew id ↔ r.routeNew id = some s := by
    intro id
    rw [routeOld, routeNew, ht]
    constructor
    · intro hne
      exact (Ring.route_add r.old.ring s id).resolve_right fun he => hne he.symm
    · intro hnew he
      -- the shard is not on the old ring
      have hin := ho.route (he.trans hnew)
      rw [hs] at hin
      cases hin
  have hslice := slice_of_add hn hs ht
  refine ⟨fun id => ?_, fun s' he => ?_, fun _ he => by cases he⟩
  · rw [hmoved, RingChange.shard, hslice, targetSlice, selects_slice, routeNew]
  · obtain rfl := RingChange.add.inj he
    exact ⟨hslice, hmoved⟩

theorem moves_removed (ho : r.old.ring.Owned) (hn : r.new.isSome) (hs : r.old.ring.contains s = true)
    (ht : r.target.ring = r.old.ring.remove s) : r.Moves (.remove s) := by
  have hleft : ∀ id, r.routeNew id ≠ some s := by
    intro id
    rw [routeNew, ht]
    exact Ring.route_remove_ne ho s id
  have hmoved : ∀ id, r.routeOld id ≠ r.routeNew id ↔ r.routeOld id = some s := by
    intro id
    constructor
    · intro hne
      rw [routeOld, routeNew, ht] at hne
      exact (Ring.route_remove hs id).resolve_right hne
    · exact fun hold he => hleft id (he.symm.trans hold)
  refine ⟨fun id => ?_, fun _ he => (by cases he), fun s' he id => ?_⟩
  · rw [hmoved, RingChange.shard, slice_of_remove hn ht, selects_slice, routeOld]
  · obtain rfl := RingChange.remove.inj he
    exact ⟨hmoved id, hleft id⟩

theorem Turning.moves (h : r.Turning (some change)) : r.Moves change := by
  have hn : r.new.isSome := h.resharding
  obtain ⟨s, rfl, hs, ht⟩ | ⟨s, rfl, hs, ht⟩ := changed_cases (h.changed change rfl)
  · exact moves_added h.owned hn hs ht
  · exact moves_removed h.owned hn hs ht

/-- Whatever calls have been made, two rings are there just while a change is in flight, and they
differ in the points that the slice of its shard has. -/
theorem moves_of_called (h : Called x r) :
    r.resharding = x.isSome ∧ ∀ change, x = some change → r.Moves change :=
  ⟨h.turning.resharding, fun _ hx => (hx ▸ h.turning).moves⟩

/-- A change that is given up after its reads have moved, one that ends without a commit, and a third
one, of which the writes move first. -/
def wavering : Except Error Router := do
  let r ← (Router.single (.ofShards 2 [0, 1])).start (.add 2)
  let r ← r.commitRead
  let r ← r.abort.start (.add 5)
  let r ← r.finish
  let r ← r.start (.remove 1)
  r.commitWrite

theorem called_wavering (h : wavering = .ok r) : Called (some (.remove 1)) r := by
  have hbuilt : (Ring.ofShards 2 [0, 1]).Built := ((Ring.Built.empty 2).add 0).add 1
  simp only [wavering, bind_eq_ok] at h
  obtain ⟨r₁, h₁, r₂, h₂, r₃, h₃, r₄, h₄, r₅, h₅, h₆⟩ := h
  have hup := ((Called.single hbuilt).call (.start (.add 2)) h₁).call .commitRead h₂
  have hfinished := ((hup.call .abort rfl).call (.start (.add 5)) h₃).call .finish h₄
  exact (hfinished.call (.start (.remove 1)) h₅).call .commitWrite h₆

/-- A point of the shard that goes moves, and one of another shard does not. -/
theorem moves_wavering : ∃ r, wavering = .ok r ∧ r.resharding = true ∧
    (r.routeOld (.num 1) ≠ r.routeNew (.num 1) ∧ (r.slice 1).selects (.num 1) = true) ∧
    r.routeOld (.num 4) = r.routeNew (.num 4) ∧ (r.slice 1).selects (.num 4) = false := by
  have hgoes : wavering.toOption.map (fun r => r.routeOld (.num 1)) = some (some 1) := by
    decide +kernel
  have hstays : wavering.toOption.map (fun r => r.routeOld (.num 4)) = some (some 0) := by
    decide +kernel
  cases hr : wavering with
  | error e =>
    rw [hr] at hgoes
    cases hgoes
  | ok r =>
    simp only [hr, Except.toOption, Option.map_some, Option.some.injEq] at hgoes hstays
    obtain ⟨hresharding, hmoves⟩ := moves_of_called (called_wavering hr)
    have hm := hmoves _ rfl
    have hone := (hm.removed 1 rfl (.num 1)).1.2 hgoes
    have hfour : r.routeOld (.num 4) = r.routeNew (.num 4) := by
      refine Decidable.byContradiction fun hne => ?_
      have hold := (hm.removed 1 rfl (.num 4)).1.1 hne
      rw [hstays] at hold
      cases hold
    refine ⟨r, rfl, hresharding, ⟨hone, (hm.slice _).1 hone⟩, hfour, ?_⟩
    exact Bool.eq_false_iff.2 fun hsel => (hm.slice _).2 hsel hfour

end Router
end ShardCluster
