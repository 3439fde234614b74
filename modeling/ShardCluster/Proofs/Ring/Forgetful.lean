import ShardCluster.Proofs.Ring.Sited
/-! A ring does not remember how it was made. Shards come and go, also twice and also those that are not
there; what is left is the ring of the shards that came and have not gone since. -/
namespace ShardCluster

/-- The shard that a change brings. -/
def RingChange.comes : RingChange → Option ShardId
  | add s => some s
  | remove _ => none

namespace Ring
open SortedMap
variable {r r' : Ring} {calls : List RingChange} {change : RingChange} {l : List ShardId} {s : ShardId}

def alter (r : Ring) : RingChange → Ring
  | .add s => r.add s
  | .remove s => r.remove s

def made (perShard : Nat) (calls : List RingChange) : Ring := calls.foldl alter (empty perShard)

/-- The shard came at some time and has not gone since. -/
def Standing (calls : List RingChange) (s : ShardId) : Prop :=
  ∃ before later, calls = before ++ .add s :: later ∧ .remove s ∉ later

theorem standing_cons {rest : List RingChange} : Standing (change :: rest) s ↔
    Standing rest s ∨ change = .add s ∧ .remove s ∉ rest := by
  constructor
  · intro h
    obtain ⟨before, later, he, hl⟩ := h
    cases before with
    | nil =>
      obtain ⟨rfl, rfl⟩ := List.cons.inj he
      exact .inr ⟨rfl, hl⟩
    | cons first before =>
      obtain ⟨rfl, rfl⟩ := List.cons.inj he
      exact .inl ⟨before, later, rfl, hl⟩
  · intro h
    obtain ⟨before, later, rfl, hl⟩ | ⟨rfl, hl⟩ := h
    · exact ⟨change :: before, later, rfl, hl⟩
    · exact ⟨[], rest, rfl, hl⟩

theorem Standing.comes (h : Standing calls s) : s ∈ calls.filterMap RingChange.comes := by
  obtain ⟨before, later, rfl, -⟩ := h
  exact List.mem_filterMap.2 ⟨.add s, by simp, rfl⟩

theorem contains_alter : (r.alter change).contains s = true ↔
    change = .add s ∨ change ≠ .remove s ∧ r.contains s = true := by
  cases change with
  | add t =>
    rw [Ring.alter, contains_add, RingChange.add.injEq, eq_comm]
    simp
  | remove t =>
    rw [Ring.alter, contains_remove, ne_eq, ne_eq, RingChange.remove.injEq, eq_comm]
    simp

theorem contains_foldl_alter : (calls.foldl alter r).contains s = true ↔
    Standing calls s ∨ .remove s ∉ calls ∧ r.contains s = true := by
  induction calls generalizing r with
  | nil => simp [Standing]
  | cons change rest ih =>
    rw [List.foldl_cons, ih, contains_alter, standing_cons, List.mem_cons, not_or]
    constructor
    · rintro (h | ⟨hrest, rfl | ⟨hne, hr⟩⟩)
      · exact .inl (.inl h)
      · exact .inl (.inr ⟨rfl, hrest⟩)
      · exact .inr ⟨⟨fun he => hne he.symm, hrest⟩, hr⟩
    · rintro ((h | ⟨rfl, hrest⟩) | ⟨⟨hne, hrest⟩, hr⟩)
      · exact .inl h
      · exact .inr ⟨hrest, .inl rfl⟩
      · exact .inr ⟨hrest, .inr ⟨fun he => hne he.symm, hr⟩⟩

theorem contains_made {perShard : Nat} : (made perShard calls).contains s = true ↔ Standing calls s := by
  rw [made, contains_foldl_alter]
  simp [Ring.empty, Ring.contains, SortedMap.contains]

theorem perShard_alter : (r.alter change).perShard = r.perShard := by
  cases change with
  | add s => exact perShard_add r s
  | remove s => exact perShard_remove r s

theorem perShard_foldl_alter : (calls.foldl alter r).perShard = r.perShard := by
  induction calls generalizing r with
  | nil => rfl
  | cons change rest ih => exact ih.trans perShard_alter

theorem Sited.foldl_alter (h : r.Sited) : (calls.foldl alter r).Sited := by
  induction calls generalizing r with
  | nil => exact h
  | cons change rest ih =>
    cases change with
    | add s => exact ih (h.add s)
    | remove s => exact ih (h.remove s)

theorem Apart.subset {perShard : Nat} {l l' : List ShardId} (h : Apart perShard l) (hl : l' ⊆ l) :
    Apart perShard l' :=
  fun s hs t ht => h s (hl hs) t (hl ht)

/-- Where the shards that come keep apart, each of them has all of its positions while it is there. -/
theorem Spread.foldl_alter (h : r.Spread) (ha : Apart r.perShard l)
    (hr : ∀ s, r.contains s = true → s ∈ l) (hc : ∀ s, .add s ∈ calls → s ∈ l) :
    (calls.foldl alter r).Spread := by
  induction calls generalizing r with
  | nil => exact h
  | cons change rest ih =>
    have hrest : ∀ s, .add s ∈ rest → s ∈ l := fun s hs => hc s (List.mem_cons_of_mem _ hs)
    have hleft : ∀ s, (r.alter change).contains s = true → s ∈ l := by
      intro s hs
      obtain rfl | ⟨-, hs⟩ := contains_alter.1 hs
      · exact hc s List.mem_cons_self
      · exact hr s hs
    refine ih ?_ (by rwa [perShard_alter]) hleft hrest
    cases change with
    | add s => exact h.add fun t ht => ha s (hc s List.mem_cons_self) t (hr t ht)
    | remove s => exact h.remove s

/-- A ring is known by its shards, where each of them has its positions and there are no others. -/
theorem ext_shards (h : r.Sited) (hs : r.Spread) (h' : r'.Sited) (hs' : r'.Spread)
    (hper : r.perShard = r'.perShard) (hshards : ∀ s, r.contains s = true ↔ r'.contains s = true) :
    r = r' := by
  have hsub : ∀ {r r' : Ring}, r.Sited → r'.Spread → r.perShard = r'.perShard →
      (∀ s, r.contains s = true → r'.contains s = true) → ∀ x s, r.positions.get? x = some s →
        r'.positions.get? x = some s := by
    intro r r' h hs' hper hsub x s hx
    obtain ⟨hin, i, hi, rfl⟩ := h x s hx
    exact hs'.2 s (hsub s hin) i (hper ▸ hi)
  have hpositions : r.positions = r'.positions := by
    refine ext_get? fun x => Option.ext fun s => ?_
    exact ⟨hsub h hs' hper (fun t => (hshards t).1) x s, hsub h' hs hper.symm (fun t => (hshards t).2) x s⟩
  have hset : r.shards = r'.shards := SortedSet.ext_contains hshards
  obtain ⟨positions, perShard, shards⟩ := r
  obtain ⟨positions', perShard', shards'⟩ := r'
  simp_all

section
variable {perShard : Nat} (ha : Apart (max perShard 1) (calls.filterMap RingChange.comes))
include ha

theorem made_spread : (made perShard calls).Spread := by
  refine (Spread.empty perShard).foldl_alter ha (fun s hs => ?_) fun s hs => ?_
  · simp [Ring.empty, Ring.contains, SortedMap.contains] at hs
  · exact List.mem_filterMap.2 ⟨.add s, hs, rfl⟩

theorem made_eq_ofShards (hl : ∀ s, s ∈ l ↔ Standing calls s) :
    made perShard calls = ofShards perShard l := by
  have hper : (made perShard calls).perShard = (ofShards perShard l).perShard := by
    rw [perShard_ofShards, made, perShard_foldl_alter]
    rfl
  refine ext_shards (Sited.empty perShard).foldl_alter (made_spread ha) (.ofShards perShard l)
    (.ofShards (ha.subset fun s hs => ((hl s).1 hs).comes)) hper fun s => ?_
  rw [contains_made, contains_ofShards, hl]

end

theorem route_eq_none (h : r.Owned) (hs : r.shards.toList = []) (id : PointId) : r.route id = none := by
  cases hr : r.route id with
  | none => rfl
  | some s =>
    have hin := SortedSet.mem_toList.2 (h.route hr)
    rw [hs] at hin
    cases hin

/-- What is left of the calls that have made a ring. -/
structure Leaves (perShard : Nat) (calls : List RingChange) (r : Ring) : Prop where
  ascending : r.shards.toList.Pairwise (· < ·)
  shards : ∀ s, s ∈ r.shards.toList ↔ Standing calls s
  contains : ∀ s, r.contains s = true ↔ s ∈ r.shards.toList
  owners : ∀ e ∈ r.positions.entries, e.2 ∈ r.shards.toList
  unrouted : r.shards.toList = [] → ∀ id, r.route id = none
  /-- Where no two shards that came have a position in common. -/
  forgets : Apart (max perShard 1) (calls.filterMap RingChange.comes) →
    (∀ l : List ShardId, (∀ s, s ∈ l ↔ Standing calls s) → r = ofShards perShard l) ∧
    (r.shards.toList ≠ [] → ∀ id, ∃ s ∈ r.shards.toList, r.route id = some s)

/-- Whatever calls have made a ring, it is that of the shards which they leave. -/
theorem made_leaves (perShard : Nat) (calls : List RingChange) :
    Leaves perShard calls (made perShard calls) where
  ascending := (keys_ascending _).imp compareOfLessAndEq_eq_lt.1
  shards s := SortedSet.mem_toList.trans contains_made
  contains s := SortedSet.mem_toList.symm
  owners e he := SortedSet.mem_toList.2 ((Sited.empty perShard).foldl_alter.owned e.1 e.2 (mem_entries.1 he))
  unrouted hnil := route_eq_none (Sited.empty perShard).foldl_alter.owned hnil
  forgets ha := by
    refine ⟨fun l hl => made_eq_ofShards ha hl, fun hne id => ?_⟩
    obtain ⟨s, hs⟩ := List.exists_mem_of_ne_nil _ hne
    obtain ⟨t, ht⟩ := (made_spread ha).route (SortedSet.mem_toList.1 hs) id
    exact ⟨t, SortedSet.mem_toList.2 ((Sited.empty perShard).foldl_alter.owned.route ht), ht⟩

/-- Three shards come. One of them comes twice, goes and is there again; another one goes for good. -/
def revolving : List RingChange :=
  [.add 3, .remove 7, .add 0, .add 3, .remove 3, .add 1, .add 3, .remove 1]

theorem made_leaves_revolving : (made 2 revolving).shards.toList = [0, 3] ∧
    made 2 revolving = ofShards 2 [3, 0, 3] ∧
      ∃ s, s ∈ [0, 3] ∧ (made 2 revolving).route (.num 8) = some s := by
  have hleaves := made_leaves 2 revolving
  have hapart : Apart (max 2 1) (revolving.filterMap RingChange.comes) := by decide +kernel
  have hshards : (made 2 revolving).shards.toList = [0, 3] := by decide +kernel
  obtain ⟨hring, hroute⟩ := hleaves.forgets hapart
  refine ⟨hshards, hring [3, 0, 3] fun s => ?_, ?_⟩
  · rw [← hleaves.shards, hshards]
    grind
  · obtain ⟨s, hs, hr⟩ := hroute (by simp [hshards]) (.num 8)
    exact ⟨s, hshards ▸ hs, hr⟩

end Ring
end ShardCluster
