import ShardCluster.Proofs.SortedMap.Successor
import ShardCluster.Ring
/-! What a change of a ring moves. Points move to a shard that comes and away from one that goes;
all others stay where they are. No position need be free for that. -/
namespace ShardCluster.Ring
open SortedMap

theorem ownerAt_eq (r : Ring) (h : UInt64) : r.ownerAt h = (r.positions.next? h).map (·.2) := rfl

/-- Positions belong to shards of the ring. -/
def Owned (r : Ring) : Prop := ∀ h s, r.positions.get? h = some s → r.contains s = true

theorem contains_add {r : Ring} {s x : ShardId} :
    (r.add s).contains x = true ↔ x = s ∨ r.contains x = true := by
  unfold add
  split
  · rename_i h
    by_cases hx : x = s <;> simp [hx, h]
  · exact SortedSet.contains_add

theorem contains_remove {r : Ring} {s x : ShardId} :
    (r.remove s).contains x = true ↔ x ≠ s ∧ r.contains x = true := by
  unfold remove
  split
  · exact SortedSet.contains_erase
  · rename_i h
    by_cases hx : x = s <;> simp [hx, h]

theorem size_add {r : Ring} {s : ShardId} (hs : r.contains s = false) :
    (r.add s).size = r.size + 1 := by
  have hnone : r.shards.get? s = none := by simpa [Ring.contains, SortedMap.contains] using hs
  rw [Ring.add, if_neg (by simp [hs])]
  exact size_insert_of_none hnone ()

theorem size_remove_le (r : Ring) (s : ShardId) : (r.remove s).size ≤ r.size := by
  unfold remove
  split
  · exact List.length_filter_le _ _
  · exact Nat.le_refl _

theorem get?_claim {s : ShardId} {m : SortedMap UInt64 ShardId} {count : Nat} {x : UInt64} :
    (claim s m count).get? x =
      if ∃ i, i < count ∧ position s i = x then some s else m.get? x := by
  induction count generalizing m with
  | zero => simp [claim]
  | succ n ih =>
    have hstep : claim s m (n + 1) = (claim s m n).insert (position s n) s := by
      simp [claim, List.range_succ]
    rw [hstep, get?_insert, ih]
    by_cases hx : x = position s n
    · rw [if_pos hx, if_pos ⟨n, by omega, hx.symm⟩]
    · rw [if_neg hx]
      have hiff : (∃ i, i < n ∧ position s i = x) ↔ ∃ i, i < n + 1 ∧ position s i = x := by
        constructor
        · rintro ⟨i, hi, h⟩
          exact ⟨i, by omega, h⟩
        · rintro ⟨i, hi, h⟩
          rcases Nat.lt_succ_iff_lt_or_eq.1 hi with hi | rfl
          · exact ⟨i, hi, h⟩
          · exact absurd h.symm hx
      simp only [hiff]

theorem positions_add_sub {r : Ring} {s : ShardId} {x : UInt64} {a : ShardId}
    (h : r.positions.get? x = some a) : ∃ b, (r.add s).positions.get? x = some b := by
  unfold add
  split
  · exact ⟨a, h⟩
  · simp only [get?_claim]
    split
    · exact ⟨s, rfl⟩
    · exact ⟨a, h⟩

theorem positions_add {r : Ring} {s : ShardId} {x : UInt64} {a : ShardId}
    (h : (r.add s).positions.get? x = some a) : a = s ∨ r.positions.get? x = some a := by
  unfold add at h
  split at h
  · exact .inr h
  · simp only [get?_claim] at h
    split at h
    · exact .inl (Option.some.inj h).symm
    · exact .inr h

theorem positions_remove {r : Ring} {s : ShardId} (hs : r.contains s = true) {x : UInt64}
    {a : ShardId} : (r.remove s).positions.get? x = some a ↔ a ≠ s ∧ r.positions.get? x = some a := by
  simp only [remove, hs, if_true, get?_filter]
  cases r.positions.get? x with
  | none => simp
  | some b =>
    by_cases hb : b = s
    · subst hb
      simp only [Option.filter, bne_self_eq_false, Bool.false_eq_true, if_false]
      constructor
      · intro h; cases h
      · rintro ⟨ha, hba⟩
        exact absurd (Option.some.inj hba).symm ha
    · have hbne : (b != s) = true := by simpa using hb
      simp only [Option.filter, hbne, if_true, Option.some.injEq]
      constructor
      · rintro rfl
        exact ⟨hb, rfl⟩
      · exact And.right

theorem Owned.empty (n : Nat) : (Ring.empty n).Owned := by
  intro h s hs
  cases hs

theorem Owned.add {r : Ring} (h : r.Owned) (s : ShardId) : (r.add s).Owned := by
  intro x a hx
  rcases positions_add hx with rfl | hx
  · exact contains_add.2 (.inl rfl)
  · exact contains_add.2 (.inr (h x a hx))

theorem Owned.remove {r : Ring} (h : r.Owned) (s : ShardId) : (r.remove s).Owned := by
  by_cases hs : r.contains s = true
  · intro x a hx
    obtain ⟨ha, hx⟩ := (positions_remove hs).1 hx
    exact contains_remove.2 ⟨ha, h x a hx⟩
  · rw [Ring.remove, if_neg hs]
    exact h

theorem foldl_add_owned {l : List ShardId} {r : Ring} (h : r.Owned) : (l.foldl Ring.add r).Owned := by
  induction l generalizing r with
  | nil => exact h
  | cons s rest ih => exact ih (h.add s)

theorem Owned.ofShards (n : Nat) (l : List ShardId) : (Ring.ofShards n l).Owned :=
  foldl_add_owned (Owned.empty n)

theorem contains_foldl_add {l : List ShardId} {r : Ring} {s : ShardId} :
    (l.foldl Ring.add r).contains s = true ↔ s ∈ l ∨ r.contains s = true := by
  induction l generalizing r with
  | nil => simp
  | cons a rest ih =>
    simp only [List.foldl_cons, ih, contains_add, List.mem_cons]
    constructor
    · rintro (h | h | h)
      · exact .inl (.inr h)
      · exact .inl (.inl h)
      · exact .inr h
    · rintro ((h | h) | h)
      · exact .inr (.inl h)
      · exact .inl h
      · exact .inr (.inr h)

theorem contains_ofShards {n : Nat} {l : List ShardId} {s : ShardId} :
    (Ring.ofShards n l).contains s = true ↔ s ∈ l := by
  rw [Ring.ofShards, contains_foldl_add]
  simp [Ring.empty, Ring.contains, SortedMap.contains]

theorem Owned.route {r : Ring} (h : r.Owned) {id : PointId} {s : ShardId}
    (hr : r.route id = some s) : r.contains s = true := by
  rw [Ring.route, ownerAt_eq, Option.map_eq_some_iff] at hr
  obtain ⟨e, he, rfl⟩ := hr
  exact h e.1 e.2 (next?_spec he).1

/-- Points move only to the shard that comes. -/
theorem route_add (r : Ring) (s : ShardId) (id : PointId) :
    (r.add s).route id = some s ∨ (r.add s).route id = r.route id := by
  simp only [Ring.route, ownerAt_eq]
  exact next?_of_added (fun _ _ => positions_add_sub) (fun _ _ => positions_add) _

/-- Points move only from the shard that goes. -/
theorem route_remove {r : Ring} {s : ShardId} (hs : r.contains s = true) (id : PointId) :
    r.route id = some s ∨ r.route id = (r.remove s).route id := by
  simp only [Ring.route, ownerAt_eq]
  refine next?_of_added (fun x a hx => ⟨a, ((positions_remove hs).1 hx).2⟩) (fun x a hx => ?_) _
  by_cases ha : a = s
  · exact .inl ha
  · exact .inr ((positions_remove hs).2 ⟨ha, hx⟩)

theorem route_remove_ne {r : Ring} (h : r.Owned) (s : ShardId) (id : PointId) :
    (r.remove s).route id ≠ some s := by
  intro hr
  exact (contains_remove.1 ((h.remove s).route hr)).1 rfl

/-- Every shard of the ring holds all of its positions. -/
def Spread (r : Ring) : Prop :=
  0 < r.perShard ∧ ∀ s, r.contains s = true → ∀ i, i < r.perShard →
    r.positions.get? (position s i) = some s

/-- No two of the shards claim a common position. -/
def Apart (perShard : Nat) (shards : List ShardId) : Prop :=
  ∀ s ∈ shards, ∀ t ∈ shards, s ≠ t → ∀ i, i < perShard → ∀ j, j < perShard →
    position s i ≠ position t j

-- Only the listed shards are looked at, not every number that a shard can have.
instance (perShard : Nat) (shards : List ShardId) : Decidable (Apart perShard shards) :=
  @List.decidableBAll _ (fun s => ∀ t ∈ shards, s ≠ t → ∀ i, i < perShard → ∀ j, j < perShard →
    position s i ≠ position t j) (fun _ => List.decidableBAll _ shards) shards

theorem perShard_add (r : Ring) (s : ShardId) : (r.add s).perShard = r.perShard := by
  unfold add
  split <;> rfl

theorem perShard_remove (r : Ring) (s : ShardId) : (r.remove s).perShard = r.perShard := by
  unfold remove
  split <;> rfl

theorem perShard_ofShards (n : Nat) (l : List ShardId) : (Ring.ofShards n l).perShard = max n 1 := by
  have hfold : ∀ r : Ring, (l.foldl Ring.add r).perShard = r.perShard := by
    induction l with
    | nil => exact fun _ => rfl
    | cons s rest ih => exact fun r => (ih (r.add s)).trans (perShard_add r s)
  exact hfold (Ring.empty n)

theorem Spread.empty (n : Nat) : (Ring.empty n).Spread :=
  ⟨Nat.lt_of_lt_of_le Nat.one_pos (Nat.le_max_right n 1),
    fun s hs => by simp [Ring.empty, Ring.contains, SortedMap.contains] at hs⟩

theorem Spread.add {r : Ring} (h : r.Spread) {s : ShardId}
    (hs : ∀ t, r.contains t = true → s ≠ t → ∀ i, i < r.perShard → ∀ j, j < r.perShard →
      position s i ≠ position t j) : (r.add s).Spread := by
  unfold Ring.add
  split
  · exact h
  · rename_i hnot
    refine ⟨h.1, fun t ht i hi => ?_⟩
    simp only [get?_claim]
    by_cases hts : t = s
    · subst hts
      rw [if_pos ⟨i, hi, rfl⟩]
    · have ht' : r.contains t = true := (SortedSet.contains_add.1 ht).resolve_left hts
      rw [if_neg]
      · exact h.2 t ht' i hi
      · rintro ⟨j, hj, hjs⟩
        exact hs t ht' (fun he => hts he.symm) j hj i hi hjs

theorem Spread.remove {r : Ring} (h : r.Spread) (s : ShardId) : (r.remove s).Spread := by
  by_cases hs : r.contains s = true
  · refine ⟨by rw [perShard_remove]; exact h.1, fun t ht i hi => ?_⟩
    rw [perShard_remove] at hi
    obtain ⟨hts, ht⟩ := contains_remove.1 ht
    exact (positions_remove hs).2 ⟨hts, h.2 t ht i hi⟩
  · rw [Ring.remove, if_neg hs]
    exact h

theorem Spread.foldl_add {l : List ShardId} {r : Ring} (h : r.Spread)
    (ha : Apart r.perShard (l ++ r.shards.toList)) : (l.foldl Ring.add r).Spread := by
  induction l generalizing r with
  | nil => exact h
  | cons s rest ih =>
    have hadd : (r.add s).Spread := h.add fun t ht hst i hi j hj =>
      ha s (by simp) t (List.mem_append_right _ (SortedSet.mem_toList.2 ht)) hst i hi j hj
    have hmem : ∀ x, x ∈ rest ++ (r.add s).shards.toList → x ∈ s :: rest ++ r.shards.toList := by
      intro x hx
      rcases List.mem_append.1 hx with hx | hx
      · exact List.mem_append_left _ (List.mem_cons_of_mem _ hx)
      · rcases contains_add.1 (SortedSet.mem_toList.1 hx) with rfl | hx
        · simp
        · exact List.mem_append_right _ (SortedSet.mem_toList.2 hx)
    refine ih hadd ?_
    rw [perShard_add]
    exact fun x hx y hy => ha x (hmem x hx) y (hmem y hy)

theorem Spread.ofShards {n : Nat} {l : List ShardId} (h : Apart (max n 1) l) :
    (Ring.ofShards n l).Spread := by
  apply (Spread.empty n).foldl_add
  simpa [Ring.empty, SortedSet.toList, SortedMap.keys, SortedMap.empty] using h

/-- A ring that holds a shard whose positions it has routes every point. -/
theorem Spread.route {r : Ring} (h : r.Spread) {s : ShardId} (hs : r.contains s = true)
    (id : PointId) : ∃ t, r.route id = some t := by
  have hget := h.2 s hs 0 h.1
  cases hn : r.positions.next? (hash id.routingBytes) with
  | none => exact absurd hn (next?_ne_none hget _)
  | some e => exact ⟨e.2, by simp [Ring.route, ownerAt_eq, hn]⟩

end ShardCluster.Ring
