import ShardCluster.Proofs.Ring.Movement
import ShardCluster.Router
/-! Rings that are made one shard at a time. Every position of such a ring is one of its owner, so that
a shard which comes and goes again leaves the ring as it was, unless it took a position of another. -/
namespace ShardCluster.Ring
open SortedMap

/-- A position belongs to a shard of the ring, whose position it is. -/
def Sited (r : Ring) : Prop := ∀ h s, r.positions.get? h = some s →
  r.contains s = true ∧ ∃ i, i < r.perShard ∧ position s i = h

theorem Sited.owned {r : Ring} (h : r.Sited) : r.Owned := fun x s hx => (h x s hx).1

theorem Sited.empty (n : Nat) : (Ring.empty n).Sited := nofun

theorem Sited.add {r : Ring} (h : r.Sited) (s : ShardId) : (r.add s).Sited := by
  intro x a hx
  rw [perShard_add]
  by_cases hs : r.contains s = true
  · rw [Ring.add, if_pos hs] at hx ⊢
    exact h x a hx
  · rw [Ring.add, if_neg hs, get?_claim] at hx
    split at hx
    · rename_i hi
      obtain rfl := Option.some.inj hx
      exact ⟨contains_add.2 (.inl rfl), hi⟩
    · obtain ⟨hin, hi⟩ := h x a hx
      exact ⟨contains_add.2 (.inr hin), hi⟩

theorem Sited.remove {r : Ring} (h : r.Sited) (s : ShardId) : (r.remove s).Sited := by
  intro x a hx
  rw [perShard_remove]
  by_cases hs : r.contains s = true
  · obtain ⟨ha, hx⟩ := (positions_remove hs).1 hx
    exact ⟨contains_remove.2 ⟨ha, (h x a hx).1⟩, (h x a hx).2⟩
  · rw [Ring.remove, if_neg hs] at hx ⊢
    exact h x a hx

theorem Sited.ofShards (n : Nat) (l : List ShardId) : (Ring.ofShards n l).Sited := by
  have hfold : ∀ r : Ring, r.Sited → (l.foldl Ring.add r).Sited := by
    induction l with
    | nil => exact fun _ h => h
    | cons s rest ih => exact fun r h => ih (r.add s) (h.add s)
  exact hfold _ (.empty n)

theorem Sited.changed {r r' : Ring} (h : r.Sited) {change : RingChange}
    (hc : Router.changed r change = .ok r') : r'.Sited := by
  cases change with
  | add s =>
    simp only [Router.changed] at hc
    split at hc
    · cases hc
    · exact Except.ok.inj hc ▸ h.add s
  | remove s =>
    simp only [Router.changed] at hc
    split at hc
    · cases hc
    · split at hc
      · cases hc
      · exact Except.ok.inj hc ▸ h.remove s

/-- A shard that comes without taking a position of another one leaves no trace when it goes. -/
theorem Sited.remove_add {r : Ring} (h : r.Sited) {s : ShardId} (hs : r.contains s = false)
    (hfree : ∀ t, r.contains t = true → ∀ i, i < r.perShard → ∀ j, j < r.perShard →
      position s i ≠ position t j) : (r.add s).remove s = r := by
  have hin : (r.add s).contains s = true := contains_add.2 (.inl rfl)
  have hpositions : ((r.add s).remove s).positions = r.positions := by
    refine ext_get? fun x => ?_
    have hsame : ∀ a, ((r.add s).remove s).positions.get? x = some a ↔ r.positions.get? x = some a := by
      intro a
      rw [positions_remove hin, Ring.add, if_neg (by simp [hs]), get?_claim]
      constructor
      · intro hx
        obtain ⟨ha, hx⟩ := hx
        split at hx
        · exact absurd (Option.some.inj hx).symm ha
        · exact hx
      · intro hx
        obtain ⟨hown, j, hj, hsite⟩ := h x a hx
        refine ⟨fun he => by simp [he, hs] at hown, ?_⟩
        rw [if_neg]
        · exact hx
        · rintro ⟨i, hi, hp⟩
          exact hfree a hown i hi j hj (hp.trans hsite.symm)
    cases hx : r.positions.get? x with
    | some a => exact (hsame a).2 hx
    | none =>
      cases hy : ((r.add s).remove s).positions.get? x with
      | none => rfl
      | some a => exact absurd ((hsame a).1 hy) (by simp [hx])
  have hshards : ((r.add s).remove s).shards = r.shards := by
    have hne : ¬r.contains s = true := by simp [hs]
    rw [Ring.remove, if_pos hin, Ring.add, if_neg hne]
    have hnone : r.shards.get? s = none := by simpa [Ring.contains, SortedMap.contains] using hs
    refine ext_get? fun t => ?_
    simp only [SortedSet.add, get?_erase, get?_insert]
    split
    · rename_i he
      rw [he, hnone]
    · rfl
  have hper : ((r.add s).remove s).perShard = r.perShard := by rw [perShard_remove, perShard_add]
  generalize (r.add s).remove s = r' at hpositions hshards hper
  obtain ⟨positions, perShard, shards⟩ := r
  obtain ⟨positions', perShard', shards'⟩ := r'
  simp_all

end ShardCluster.Ring
