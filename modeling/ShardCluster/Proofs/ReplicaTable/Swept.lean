import ShardCluster.Proofs.ReplicaTable.Batch
/-! Replicas that leave the table. Each of them is to be dropped where its data is, and nothing else
is. -/
namespace ShardCluster
open ReplicaTable

namespace Cleanup

/-- What is dropped. -/
def dropped? : Cleanup → Option Location
  | drop l => some l
  | delete _ _ => none

/-- The points that are to go at a location. -/
def deleted? (x : Location) : Cleanup → Option Slice
  | drop _ => none
  | delete l s => if l = x then some s else none

def drops (l : List Cleanup) : List Location := l.filterMap dropped?

def deletesAt (x : Location) (l : List Cleanup) : List Slice := l.filterMap (deleted? x)

theorem drops_append (l l' : List Cleanup) : drops (l ++ l') = drops l ++ drops l' :=
  List.filterMap_append

@[simp] theorem drops_drop (xs : List Location) : drops (xs.map drop) = xs := by
  simp [drops, List.filterMap_map, Function.comp_def, dropped?]

theorem drops_delete (xs : List Location) (s : Slice) : drops (xs.map (delete · s)) = [] := by
  simp [drops, List.filterMap_map, Function.comp_def, dropped?]

/-- Of locations that are all different each one has its points deleted once. -/
theorem deletesAt_delete {xs : List Location} (h : xs.Nodup) (x : Location) (s : Slice) :
    deletesAt x (xs.map (delete · s)) = if x ∈ xs then [s] else [] := by
  induction xs with
  | nil => rfl
  | cons y rest ih =>
    obtain ⟨hy, hrest⟩ := List.nodup_cons.1 h
    have hcons : deletesAt x ((y :: rest).map (delete · s)) =
        (if y = x then [s] else []) ++ deletesAt x (rest.map (delete · s)) := by
      by_cases hx : y = x <;> simp [deletesAt, deleted?, hx]
    rw [hcons, ih hrest]
    by_cases hx : y = x
    · subst hx
      simp [hy]
    · have hx' : ¬x = y := fun he => hx he.symm
      simp [hx, hx']

end Cleanup

namespace ReplicaTable

/-- The replica is in the table. -/
def Has (t : ReplicaTable) (x : Location) : Prop := t.contains x.collection x.shard x.peer = true

variable {t t' t'' : ReplicaTable} {name : String} {x : Location} {l : Layout} {rs : List Replica}

theorem has_iff : t.Has x ↔ (t.look x.collection x.shard x.peer).isSome := by
  rw [Has, contains_eq]

theorem Redrawn.has (h : Redrawn t t' name l) : t'.Has x ↔
    if x.collection = name then (l x.shard x.peer).isSome = true else t.Has x := by
  rw [has_iff]
  split
  · rename_i hn
    rw [hn, h.look_eq]
  · rename_i hn
    rw [h.look_of_ne hn, has_iff]

/-- Where no replica comes or goes. -/
theorem Redrawn.has_same (h : Redrawn t t' name l)
    (hl : ∀ q p, (l q p).isSome = (t.look name q p).isSome) : t'.Has x ↔ t.Has x := by
  rw [h.has]
  split
  · rename_i hn
    rw [hl, has_iff, hn]
  · exact Iff.rfl

end ReplicaTable

open Cleanup

/-- What is cleaned up is what has gone. -/
structure Cleaned (t t' : ReplicaTable) (l : List Cleanup) : Prop where
  nodup : (drops l).Nodup
  mem_drops : ∀ x, x ∈ drops l ↔ t.Has x ∧ ¬t'.Has x
  deleted : ∀ x s, .delete x s ∈ l → t.Has x

/-- As before, where replicas only go. -/
structure Swept (t t' : ReplicaTable) (l : List Cleanup) : Prop extends Cleaned t t' l where
  shrinks : ∀ x, t'.Has x → t.Has x

variable {t t' t'' : ReplicaTable} {name : String} {l l' : List Cleanup} {xs : List Location}
  {rs : List Replica}

/-- Where replicas only come there is nothing to clean up. -/
theorem Cleaned.of_grown (h : ∀ x, t.Has x → t'.Has x) : Cleaned t t' [] where
  nodup := .nil
  mem_drops x := iff_of_false List.not_mem_nil fun hx => hx.2 (h x hx.1)
  deleted x s hx := by cases hx

namespace Swept

theorem of_same (h : ∀ x, t'.Has x ↔ t.Has x) : Swept t t' [] :=
  ⟨.of_grown fun x => (h x).2, fun x => (h x).1⟩

theorem trans (h : Swept t t' l) (h' : Swept t' t'' l') : Swept t t'' (l ++ l') where
  shrinks x hx := h.shrinks x (h'.shrinks x hx)
  nodup := by
    rw [drops_append]
    refine List.nodup_append.2 ⟨h.nodup, h'.nodup, fun x hx y hy he => ?_⟩
    subst he
    exact ((h.mem_drops x).1 hx).2 ((h'.mem_drops x).1 hy).1
  mem_drops x := by
    rw [drops_append, List.mem_append, h.mem_drops, h'.mem_drops]
    constructor
    · rintro (⟨hx, hgone⟩ | ⟨hx, hgone⟩)
      · exact ⟨hx, fun hin => hgone (h'.shrinks x hin)⟩
      · exact ⟨h.shrinks x hx, hgone⟩
    · rintro ⟨hx, hgone⟩
      by_cases hmid : t'.Has x
      · exact .inr ⟨hmid, hgone⟩
      · exact .inl ⟨hx, hmid⟩
  deleted x s hx := by
    obtain hx | hx := List.mem_append.1 hx
    · exact h.deleted x s hx
    · exact h.shrinks x (h'.deleted x s hx)

/-- Replicas that are there go, each once. -/
theorem of_drops (hn : xs.Nodup) (hx : ∀ x ∈ xs, t.Has x) (h : ∀ x, t'.Has x ↔ t.Has x ∧ x ∉ xs) :
    Swept t t' (xs.map .drop) where
  shrinks x hin := ((h x).1 hin).1
  nodup := by rwa [drops_drop]
  mem_drops x := by
    rw [drops_drop]
    constructor
    · exact fun hin => ⟨hx x hin, fun hleft => ((h x).1 hleft).2 hin⟩
    · rintro ⟨hin, hgone⟩
      exact Decidable.byContradiction fun hout => hgone ((h x).2 ⟨hin, hout⟩)
  deleted x s hin := by
    obtain ⟨y, -, he⟩ := List.mem_map.1 hin
    cases he

/-- Points go from replicas that stay. -/
theorem of_deletes (hx : ∀ x ∈ xs, t.Has x) (h : ∀ x, t'.Has x ↔ t.Has x) (s : Slice) :
    Swept t t' (xs.map (.delete · s)) where
  shrinks x hin := (h x).1 hin
  nodup := by rw [drops_delete]; exact .nil
  mem_drops x := by
    rw [drops_delete]
    exact iff_of_false List.not_mem_nil fun hin => hin.2 ((h x).2 hin.1)
  deleted x s' hin := by
    obtain ⟨y, hy, he⟩ := List.mem_map.1 hin
    obtain ⟨rfl, -⟩ := Cleanup.delete.inj he
    exact hx y hy

end Swept

namespace ReplicaTable

theorem mem_locations {x : Location} : x ∈ rs.map (·.location name) ↔
    x.collection = name ∧ ∃ r ∈ rs, r.shard = x.shard ∧ r.peer = x.peer := by
  simp only [List.mem_map]
  constructor
  · rintro ⟨r, hr, rfl⟩
    exact ⟨rfl, r, hr, rfl, rfl⟩
  · rintro ⟨hn, r, hr, hq, hp⟩
    exact ⟨r, hr, Location.ext_parts hn.symm hp hq⟩

theorem locations_nodup (h : rs.Pairwise fun a b => ¬(a.shard = b.shard ∧ a.peer = b.peer))
    (name : String) : (rs.map (·.location name)).Nodup :=
  List.pairwise_map.2 (h.imp fun hne he => hne ⟨congrArg Location.shard he, congrArg Location.peer he⟩)

theorem dropping_cleanup (name : String) (rs : List Replica) :
    (Effects.dropping name rs).cleanup = (rs.map (·.location name)).map .drop := by
  simp [Effects.dropping]

theorem deleting_cleanup (name : String) (s : Slice) (rs : List Replica) :
    (Effects.deleting name s rs).cleanup = (rs.map (·.location name)).map (.delete · s) := by
  simp [Effects.deleting]

theorem setState_has {q : ShardId} {p : PeerId} {s old : ReplicaState} {x : Location}
    (h : t.setState name q p s = .ok (t', old)) : t'.Has x ↔ t.Has x := by
  obtain ⟨hold, hd⟩ := setState_redrawn h
  refine hd.has_same fun q' p' => ?_
  rw [Layout.put]
  split
  · rename_i he
    rw [he.1, he.2, hold]
    rfl
  · rfl

theorem insert_has {q : ShardId} {p : PeerId} {s : ReplicaState} {x : Location}
    (h : t.insert name q p s = .ok t') (hx : t.Has x) : t'.Has x := by
  rw [(insert_redrawn h).has]
  split
  · rename_i hn
    rw [Layout.put]
    split
    · rfl
    · rw [has_iff, hn] at hx
      exact hx
  · exact hx

theorem remove_swept {q : ShardId} {p : PeerId} {old : ReplicaState}
    (h : t.remove name q p = .ok (t', old)) : Swept t t' [.drop ⟨name, p, q⟩] := by
  obtain ⟨hold, hd⟩ := remove_redrawn h
  have hhas : t.Has ⟨name, p, q⟩ := by
    rw [has_iff, hold]
    rfl
  have hn : [(⟨name, p, q⟩ : Location)].Nodup := List.pairwise_singleton _ _
  refine Swept.of_drops hn (fun x hx => ?_) fun x => ?_
  · rwa [List.mem_singleton.1 hx]
  rw [hd.has, List.mem_singleton, has_iff]
  by_cases hn : x.collection = name
  · subst hn
    have hx : x = ⟨x.collection, p, q⟩ ↔ x.shard = q ∧ x.peer = p := by
      obtain ⟨n, p', q'⟩ := x
      simp [and_comm]
    rw [if_pos rfl, Layout.cut, hx]
    by_cases hqp : x.shard = q ∧ x.peer = p
    · simp [hqp]
    · simp [hqp]
  · have hx : x ≠ ⟨name, p, q⟩ := fun he => hn (congrArg Location.collection he)
    simp [hn, hx]

theorem removeShard_swept {q : ShardId} (h : t.removeShard name q = .ok (t', rs)) :
    Swept t t' (Effects.dropping name rs).cleanup := by
  obtain ⟨hd, hmem⟩ := removeShard_redrawn h
  have hexists : ∀ p, (∃ r ∈ rs, r.shard = q ∧ r.peer = p) ↔ (t.look name q p).isSome := by
    intro p
    rw [exists_replica (P := (· = q)) hmem, and_iff_right rfl]
  rw [dropping_cleanup]
  refine Swept.of_drops (locations_nodup (removeShard_apart h) name) (fun x hx => ?_)
    fun x => ?_
  · obtain ⟨hn, r, hr, hq, hp⟩ := mem_locations.1 hx
    rw [has_iff, hn, ← hq, ← hp, ((hmem r).1 hr).2]
    rfl
  · rw [hd.has, mem_locations, has_iff]
    by_cases hn : x.collection = name
    · rw [if_pos hn, Layout.without, hn, and_iff_right rfl]
      by_cases hq : x.shard = q
      · simp only [hq, hexists, List.mem_singleton, if_true]
        exact iff_of_false Bool.false_ne_true fun hx => hx.2 hx.1
      · have hout : ¬∃ r ∈ rs, r.shard = x.shard ∧ r.peer = x.peer := by
          rintro ⟨r, hr, hrq, -⟩
          exact hq (hrq.symm.trans ((hmem r).1 hr).1)
        simp [hq, hout]
    · simp [hn]

theorem removeCollection_swept (t : ReplicaTable) (name : String) : Swept t (t.removeCollection name).1
    (Effects.dropping name (t.removeCollection name).2).cleanup := by
  obtain ⟨-, -, hget, hmem⟩ := removeCollection_spec t name
  have hapart : (t.removeCollection name).2.Pairwise fun a b => ¬(a.shard = b.shard ∧ a.peer = b.peer) := by
    unfold removeCollection
    split
    · exact flatten_apart _
    · exact .nil
  rw [dropping_cleanup]
  refine Swept.of_drops (locations_nodup hapart name) (fun x hx => ?_) fun x => ?_
  · obtain ⟨hn, r, hr, hq, hp⟩ := mem_locations.1 hx
    rw [has_iff, hn, ← hq, ← hp, (hmem r).1 hr]
    rfl
  · rw [mem_locations, has_iff, has_iff]
    by_cases hn : x.collection = name
    · have hgone : ((t.removeCollection name).1.look x.collection x.shard x.peer) = none := by
        simp [look, hget, hn]
      rw [hgone]
      refine iff_of_false (by simp) fun hx => ?_
      obtain ⟨s, hs⟩ := Option.isSome_iff_exists.1 hx.1
      exact hx.2 ⟨hn, ⟨x.shard, x.peer, s⟩, (hmem _).2 (hn ▸ hs), rfl, rfl⟩
    · have hsame : (t.removeCollection name).1.look x.collection = t.look x.collection := by
        funext q p
        simp [look, hget, hn]
      simp [hsame, hn]

end ReplicaTable

namespace Cluster

theorem removeShards_swept {shards : List ShardId} (h : removeShards t name shards = .ok (t', rs)) :
    Swept t t' (Effects.dropping name rs).cleanup := by
  induction shards generalizing t rs with
  | nil =>
    obtain ⟨rfl, rfl⟩ : t = t' ∧ [] = rs := by simpa [removeShards] using h
    exact .of_same fun _ => Iff.rfl
  | cons q rest ih =>
    simp only [removeShards, bind_eq_ok, pure_eq_ok, Prod.mk.injEq] at h
    obtain ⟨⟨t₁, removed⟩, hremoved, ⟨t₂, more⟩, hmore, rfl, rfl⟩ := h
    have happend : (Effects.dropping name (removed ++ more)).cleanup =
        (Effects.dropping name removed).cleanup ++ (Effects.dropping name more).cleanup :=
      List.map_append
    rw [happend]
    exact (removeShard_swept hremoved).trans (ih hmore)

theorem removeReplicas_swept {l : List (String × ShardId × PeerId)} (h : removeReplicas t l = .ok t') :
    Swept t t' (l.map fun x => .drop ⟨x.1, x.2.2, x.2.1⟩) := by
  induction l generalizing t with
  | nil =>
    obtain rfl : t = t' := by simpa [removeReplicas] using h
    exact .of_same fun _ => Iff.rfl
  | cons x rest ih =>
    obtain ⟨name, q, p⟩ := x
    simp only [removeReplicas, bind_eq_ok] at h
    obtain ⟨⟨t₁, old⟩, hremoved, h⟩ := h
    exact (remove_swept hremoved).trans (ih h)

theorem insertPlacement_has {placement : Placement} {x : Location}
    (h : insertPlacement t name placement = .ok t') (hx : t.Has x) : t'.Has x := by
  rw [(insertPlacement_redrawn h).has]
  split
  · rename_i hn
    rw [Layout.placed]
    split
    · rfl
    · rw [has_iff, hn] at hx
      exact hx
  · exact hx

end Cluster
end ShardCluster
