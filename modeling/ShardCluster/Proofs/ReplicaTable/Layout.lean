import ShardCluster.Cluster.Shape
import ShardCluster.Proofs.Result
import ShardCluster.Proofs.SortedMap.Lookup
/-! The replica table as a flat map: which replicas a collection has, and in which state. Every
operation of the table changes it replica by replica. -/
namespace ShardCluster
open Std

/-- The state of every replica of a collection. -/
abbrev Layout := ShardId → PeerId → Option ReplicaState

namespace Layout

def none : Layout := fun _ _ => .none

/-- A replica gets a state. -/
def put (l : Layout) (shard : ShardId) (peer : PeerId) (state : ReplicaState) : Layout :=
  fun q p => if q = shard ∧ p = peer then some state else l q p

/-- A replica goes. -/
def cut (l : Layout) (shard : ShardId) (peer : PeerId) : Layout :=
  fun q p => if q = shard ∧ p = peer then .none else l q p

/-- All replicas of some shards go. -/
def without (l : Layout) (shards : List ShardId) : Layout :=
  fun q p => if q ∈ shards then .none else l q p

/-- The replicas of some shards that were being filled are active. -/
def settled (l : Layout) (shards : List ShardId) : Layout :=
  fun q p => if l q p = some .resharding ∧ q ∈ shards then some .active else l q p

/-- Some replicas get a state. -/
def marked (l : Layout) (replicas : List (ShardId × PeerId)) (state : ReplicaState) : Layout :=
  fun q p => if (q, p) ∈ replicas then some state else l q p

/-- Every host of a placement gets an active replica. -/
def placed (l : Layout) (placement : Placement) : Layout :=
  fun q p => if p ∈ (placement.get? q).getD [] then some .active else l q p

section
variable {l : Layout} {q q' : ShardId} {p p' : PeerId}

theorem put_cases {s s' : ReplicaState} (h : l.put q' p' s' q p = some s) :
    q = q' ∧ p = p' ∧ s = s' ∨ ¬(q = q' ∧ p = p') ∧ l q p = some s := by
  by_cases hc : q = q' ∧ p = p'
  · rw [Layout.put, if_pos hc] at h
    exact .inl ⟨hc.1, hc.2, (Option.some.inj h).symm⟩
  · rw [Layout.put, if_neg hc] at h
    exact .inr ⟨hc, h⟩

theorem cut_eq_some {s : ReplicaState} :
    l.cut q' p' q p = some s ↔ ¬(q = q' ∧ p = p') ∧ l q p = some s := by
  by_cases hq : q = q' ∧ p = p' <;> simp [Layout.cut, hq]

theorem without_eq_some {shards : List ShardId} {s : ReplicaState} :
    l.without shards q p = some s ↔ q ∉ shards ∧ l q p = some s := by
  by_cases hq : q ∈ shards <;> simp [Layout.without, hq]

theorem without_of_not_mem {shards : List ShardId} (hq : q ∉ shards) (p : PeerId) :
    l.without shards q p = l q p :=
  if_neg hq

theorem settled_cases {shards : List ShardId} {s : ReplicaState}
    (h : l.settled shards q p = some s) : l q p = some s ∨ s = .active := by
  unfold Layout.settled at h
  split at h
  · exact .inr (Option.some.inj h).symm
  · exact .inl h

theorem placed_cases {placement : Placement} {s : ReplicaState}
    (h : l.placed placement q p = some s) :
    l q p = some s ∨ s = .active ∧ p ∈ (placement.get? q).getD [] := by
  unfold Layout.placed at h
  split at h
  · rename_i hp
    exact .inr ⟨(Option.some.inj h).symm, hp⟩
  · exact .inl h

/-- Nothing is placed on a shard that the placement does not name. -/
theorem placed_of_not_mem {placement : Placement} (hq : q ∉ placement.keys) (p : PeerId) :
    l.placed placement q p = l q p := by
  have hnone : placement.get? q = .none := by
    cases hx : placement.get? q with
    | none => rfl
    | some x => exact absurd (SortedMap.mem_keys.2 ⟨x, hx⟩) hq
  simp [placed, hnone]

end

end Layout

namespace ReplicaTable

def look (t : ReplicaTable) (name : String) : Layout :=
  fun shard peer => ((t.collections.get? name).bind (·.get? shard)).bind (·.get? peer)

/-- No shard is listed without a replica. -/
def Tidy (t : ReplicaTable) : Prop :=
  ∀ name shards shard peers, t.collections.get? name = some shards →
    shards.get? shard = some peers → peers.isEmpty = false

/-- `t'` differs from `t` in the replicas of one collection alone, which are as `l` says. -/
structure Redrawn (t t' : ReplicaTable) (name : String) (l : Layout) : Prop where
  home : t'.home = t.home
  known : ∀ n, t'.collections.contains n = t.collections.contains n
  others : ∀ n, n ≠ name → t'.collections.get? n = t.collections.get? n
  look : ∀ q p, t'.look name q p = l q p
  tidy : t.Tidy → t'.Tidy

namespace Redrawn
variable {t t' t'' : ReplicaTable} {name : String} {l l' : Layout}

theorem refl (t : ReplicaTable) (name : String) : Redrawn t t name (t.look name) :=
  ⟨rfl, fun _ => rfl, fun _ _ => rfl, fun _ _ => rfl, id⟩

theorem trans (h : Redrawn t t' name l) (h' : Redrawn t' t'' name l') : Redrawn t t'' name l' where
  home := h'.home.trans h.home
  known n := (h'.known n).trans (h.known n)
  others n hn := (h'.others n hn).trans (h.others n hn)
  look := h'.look
  tidy := h'.tidy ∘ h.tidy

theorem look_eq (h : Redrawn t t' name l) : t'.look name = l :=
  funext fun q => funext fun p => h.look q p

theorem look_of_ne (h : Redrawn t t' name l) {n : String} (hn : n ≠ name) :
    t'.look n = t.look n := by
  funext q p
  simp [ReplicaTable.look, h.others n hn]

theorem congr (h : Redrawn t t' name l) (hl : ∀ q p, l q p = l' q p) : Redrawn t t' name l' :=
  ⟨h.home, h.known, h.others, fun q p => (h.look q p).trans (hl q p), h.tidy⟩

end Redrawn

/-- Tidy tables are known by the collections they list and the replicas in them. -/
theorem Tidy.ext {t t' : ReplicaTable} (h : t.Tidy) (h' : t'.Tidy) (home : t.home = t'.home)
    (known : ∀ n, t.collections.contains n = t'.collections.contains n)
    (look : ∀ n q p, t.look n q p = t'.look n q p) : t = t' := by
  obtain ⟨home₁, maps⟩ := t
  obtain ⟨home₂, maps'⟩ := t'
  obtain rfl : home₁ = home₂ := home
  suffices hm : maps = maps' by rw [hm]
  apply SortedMap.ext_get?
  intro n
  have hn := known n
  simp only [SortedMap.contains] at hn
  cases hs : maps.get? n with
  | none =>
    cases hs' : maps'.get? n with
    | none => rfl
    | some shards' => simp [hs, hs'] at hn
  | some shards =>
    cases hs' : maps'.get? n with
    | none => simp [hs, hs'] at hn
    | some shards' =>
      refine congrArg some (SortedMap.ext_get? fun q => ?_)
      have hq : ∀ p, (shards.get? q).bind (·.get? p) = (shards'.get? q).bind (·.get? p) := by
        intro p
        simpa [ReplicaTable.look, hs, hs'] using look n q p
      -- an entry without replicas would look like none at all
      cases hp : shards.get? q with
      | none =>
        cases hp' : shards'.get? q with
        | none => rfl
        | some peers' =>
          have he : peers'.isEmpty = true :=
            SortedMap.isEmpty_iff.2 fun p => by simpa [hp, hp'] using (hq p).symm
          exact absurd (h' n _ q _ hs' hp') (by simp [he])
      | some peers =>
        cases hp' : shards'.get? q with
        | none =>
          have he : peers.isEmpty = true :=
            SortedMap.isEmpty_iff.2 fun p => by simpa [hp, hp'] using hq p
          exact absurd (h n _ q _ hs hp) (by simp [he])
        | some peers' =>
          exact congrArg some (SortedMap.ext_get? fun p => by simpa [hp, hp'] using hq p)

variable {t t' : ReplicaTable} {name : String}

theorem shardsOf_eq_ok {shards : CollectionReplicas} :
    t.shardsOf name = .ok shards ↔ t.collections.get? name = some shards := by
  unfold shardsOf
  cases t.collections.get? name <;> simp

theorem state_eq_ok {q : ShardId} {p : PeerId} {state : ReplicaState} :
    t.state name q p = .ok state ↔ t.look name q p = some state := by
  simp only [ReplicaTable.state, bind_eq_ok, shardsOf_eq_ok, look]
  cases t.collections.get? name with
  | none => simp
  | some shards =>
    cases h : (shards.get? q).bind (·.get? p) <;> simp [h, throw_eq_ok, pure_eq_ok]

theorem contains_eq {q : ShardId} {p : PeerId} :
    t.contains name q p = (t.look name q p).isSome := by
  rw [ReplicaTable.contains]
  cases h : t.state name q p with
  | ok state => simp [state_eq_ok.1 h, Except.toBool]
  | error e =>
    cases hl : t.look name q p with
    | none => rfl
    | some state => simp [state_eq_ok.2 hl] at h

theorem putShards_redrawn {shards : CollectionReplicas} (hk : t.collections.contains name = true)
    (ht : t.Tidy → ∀ q peers, shards.get? q = some peers → peers.isEmpty = false) :
    Redrawn t (t.putShards name shards) name (fun q p => (shards.get? q).bind (·.get? p)) where
  home := rfl
  known n := by
    by_cases hn : n = name
    · subst hn
      simpa [putShards, SortedMap.contains] using hk.symm
    · simp [putShards, SortedMap.contains, SortedMap.get?_insert_of_ne hn]
  others n hn := SortedMap.get?_insert_of_ne hn _ _
  look q p := by simp [look, putShards]
  tidy h n shards' q peers hs hp := by
    by_cases hn : n = name
    · subst hn
      obtain rfl : shards = shards' := by simpa [putShards] using hs
      exact ht h q peers hp
    · exact h n shards' q peers (by simpa [putShards, SortedMap.get?_insert_of_ne hn] using hs) hp

theorem isEmpty_insert {m : ShardReplicas} {p : PeerId} {s : ReplicaState} :
    (m.insert p s).isEmpty = false := by
  cases h : (m.insert p s).isEmpty with
  | false => rfl
  | true => simpa using SortedMap.isEmpty_iff.1 h p

theorem insert_redrawn {q : ShardId} {p : PeerId} {s : ReplicaState}
    (h : t.insert name q p s = .ok t') : Redrawn t t' name ((t.look name).put q p s) := by
  simp only [ReplicaTable.insert, bind_eq_ok, shardsOf_eq_ok, pure_eq_ok] at h
  obtain ⟨shards, hs, rfl⟩ := h
  refine (putShards_redrawn (by simp [SortedMap.contains, hs]) ?_).congr ?_
  · intro ht q' peers hp
    rw [SortedMap.get?_insert] at hp
    split at hp
    · obtain rfl := Option.some.inj hp
      exact isEmpty_insert
    · exact ht name shards q' peers hs hp
  · intro q' p'
    rw [SortedMap.get?_insert, Layout.put, look, hs]
    by_cases hq : q' = q
    · subst hq
      cases hx : shards.get? q' <;> by_cases hp : p' = p <;> simp [hx, SortedMap.get?_insert, hp]
    · simp [hq]

theorem insert_ok (h : t.collections.contains name = true) (q : ShardId) (p : PeerId) (s : ReplicaState) :
    ∃ t', t.insert name q p s = .ok t' := by
  obtain ⟨shards, hs⟩ := SortedMap.contains_iff.1 h
  simp only [ReplicaTable.insert, bind_eq_ok, shardsOf_eq_ok, pure_eq_ok]
  exact ⟨_, shards, hs, rfl⟩

theorem setState_redrawn {q : ShardId} {p : PeerId} {s old : ReplicaState}
    (h : t.setState name q p s = .ok (t', old)) :
    t.look name q p = some old ∧ Redrawn t t' name ((t.look name).put q p s) := by
  simp only [setState, bind_eq_ok, shardsOf_eq_ok, state_eq_ok, pure_eq_ok, Prod.mk.injEq] at h
  obtain ⟨_, hl, shards, hs, rfl, rfl⟩ := h
  refine ⟨hl, (putShards_redrawn (by simp [SortedMap.contains, hs]) ?_).congr ?_⟩
  · intro ht q' peers hp
    rw [SortedMap.get?_update] at hp
    split at hp
    · obtain ⟨_, -, rfl⟩ := Option.map_eq_some_iff.1 hp
      exact isEmpty_insert
    · exact ht name shards q' peers hs hp
  · intro q' p'
    rw [SortedMap.get?_update, Layout.put]
    rw [look, hs] at hl ⊢
    by_cases hq : q' = q
    · subst hq
      cases hx : shards.get? q' with
      | none => simp [hx] at hl
      | some peers => by_cases hp : p' = p <;> simp [hx, SortedMap.get?_insert, hp]
    · simp [hq]

theorem setState_ok {q : ShardId} {p : PeerId} (s : ReplicaState) {old : ReplicaState}
    (h : t.look name q p = some old) : ∃ t', t.setState name q p s = .ok (t', old) := by
  cases hs : t.collections.get? name with
  | none => simp [look, hs] at h
  | some shards =>
    refine ⟨t.putShards name (shards.update q (·.insert p s)), ?_⟩
    simp only [setState, bind_eq_ok, shardsOf_eq_ok, state_eq_ok, pure_eq_ok]
    exact ⟨old, h, shards, hs, rfl⟩

theorem remove_redrawn {q : ShardId} {p : PeerId} {old : ReplicaState}
    (h : t.remove name q p = .ok (t', old)) :
    t.look name q p = some old ∧ Redrawn t t' name ((t.look name).cut q p) := by
  simp only [ReplicaTable.remove, bind_eq_ok, shardsOf_eq_ok, state_eq_ok, pure_eq_ok,
    Prod.mk.injEq] at h
  obtain ⟨_, hl, shards, hs, rfl, rfl⟩ := h
  rw [look, hs] at hl
  cases hx : shards.get? q with
  | none => simp [hx] at hl
  | some peers =>
    simp only [Option.getD_some]
    refine ⟨by simpa [look, hs, hx] using hl, ?_⟩
    refine (putShards_redrawn (by simp [SortedMap.contains, hs]) ?_).congr ?_
    · intro ht q' peers' hp
      split at hp
      · rw [SortedMap.get?_erase] at hp
        split at hp
        · cases hp
        · exact ht name shards q' peers' hs hp
      · rename_i he
        rw [SortedMap.get?_insert] at hp
        split at hp
        · obtain rfl := Option.some.inj hp
          simpa using he
        · exact ht name shards q' peers' hs hp
    · intro q' p'
      rw [Layout.cut, look, hs]
      by_cases hq : q' = q
      · subst hq
        split
        · rename_i he
          have hnone := SortedMap.isEmpty_iff.1 he p'
          rw [SortedMap.get?_erase] at hnone
          by_cases hp : p' = p <;> simp_all
        · by_cases hp : p' = p <;> simp [hx, SortedMap.get?_erase, hp]
      · split <;> simp [hq, SortedMap.get?_erase, SortedMap.get?_insert]

theorem remove_ok {q : ShardId} {p : PeerId} {old : ReplicaState} (h : t.look name q p = some old) :
    ∃ t', t.remove name q p = .ok (t', old) := by
  cases hs : t.collections.get? name with
  | none => simp [look, hs] at h
  | some shards =>
    simp only [ReplicaTable.remove, bind_eq_ok, shardsOf_eq_ok, state_eq_ok, pure_eq_ok]
    exact ⟨_, old, h, shards, hs, rfl⟩

/-- Replicas that are listed by look-up. -/
theorem exists_replica {l : Layout} {rs : List Replica} {P : ShardId → Prop}
    (h : ∀ r, r ∈ rs ↔ P r.shard ∧ l r.shard r.peer = some r.state) {q : ShardId} {p : PeerId} :
    (∃ r ∈ rs, r.shard = q ∧ r.peer = p) ↔ P q ∧ (l q p).isSome := by
  constructor
  · intro hx
    obtain ⟨r, hr, rfl, rfl⟩ := hx
    obtain ⟨hp, hl⟩ := (h r).1 hr
    exact ⟨hp, by simp [hl]⟩
  · intro hx
    obtain ⟨hp, hl⟩ := hx
    obtain ⟨s, hl⟩ := Option.isSome_iff_exists.1 hl
    exact ⟨⟨q, p, s⟩, (h _).2 ⟨hp, hl⟩, rfl, rfl⟩

theorem mem_ofShard {r : Replica} {q : ShardId} {peers : ShardReplicas} :
    r ∈ ofShard q peers ↔ r.shard = q ∧ peers.get? r.peer = some r.state := by
  simp only [ofShard, List.mem_map, Prod.exists]
  constructor
  · rintro ⟨p, s, hm, rfl⟩
    exact ⟨rfl, SortedMap.mem_entries.1 hm⟩
  · rintro ⟨rfl, h⟩
    exact ⟨r.peer, r.state, SortedMap.mem_entries.2 h, rfl⟩

theorem mem_flatten {r : Replica} {shards : CollectionReplicas} :
    r ∈ flatten shards ↔ (shards.get? r.shard).bind (·.get? r.peer) = some r.state := by
  simp only [flatten, List.mem_flatMap, Prod.exists, mem_ofShard, Option.bind_eq_some_iff]
  constructor
  · rintro ⟨q, peers, hm, rfl, h⟩
    exact ⟨peers, SortedMap.mem_entries.1 hm, h⟩
  · rintro ⟨peers, hm, h⟩
    exact ⟨r.shard, peers, SortedMap.mem_entries.2 hm, rfl, h⟩

theorem replicas_ok {l : List Replica} (h : t.replicas name = .ok l) {r : Replica} :
    r ∈ l ↔ t.look name r.shard r.peer = some r.state := by
  simp only [replicas, bind_eq_ok, shardsOf_eq_ok, pure_eq_ok] at h
  obtain ⟨shards, hs, rfl⟩ := h
  simp [mem_flatten, look, hs]

theorem shardReplicas_ok {q : ShardId} {l : List Replica} (h : t.shardReplicas name q = .ok l)
    {r : Replica} : r ∈ l ↔ r.shard = q ∧ t.look name q r.peer = some r.state := by
  simp only [shardReplicas, bind_eq_ok, shardsOf_eq_ok] at h
  obtain ⟨shards, hs, h⟩ := h
  cases hq : shards.get? q with
  | none => simp [hq, throw_eq_ok] at h
  | some peers =>
    simp only [hq, pure_eq_ok] at h
    subst h
    simp [mem_ofShard, look, hs, hq]

/-- A shard with a replica is found. -/
theorem shardReplicas_of_look {q : ShardId} {p : PeerId} {s : ReplicaState}
    (h : t.look name q p = some s) : ∃ l, t.shardReplicas name q = .ok l := by
  cases hs : t.collections.get? name with
  | none => simp [look, hs] at h
  | some shards =>
    cases hq : shards.get? q with
    | none => simp [look, hs, hq] at h
    | some peers =>
      refine ⟨ofShard q peers, ?_⟩
      simp only [shardReplicas, bind_eq_ok, shardsOf_eq_ok]
      exact ⟨shards, hs, by simp [hq, pure_eq_ok]⟩

/-- A peer has a shard once. -/
theorem ofShard_nodup (q : ShardId) (peers : ShardReplicas) : ((ofShard q peers).map (·.peer)).Nodup := by
  have hkeys : (ofShard q peers).map (·.peer) = peers.keys := by
    simp [ofShard, SortedMap.keys]
  rw [hkeys]
  exact SortedMap.keys_nodup peers

theorem ofShard_apart (q : ShardId) (peers : ShardReplicas) :
    (ofShard q peers).Pairwise (fun a b => ¬(a.shard = b.shard ∧ a.peer = b.peer)) :=
  (List.pairwise_map.1 (ofShard_nodup q peers)).imp fun hne hab => hne hab.2

theorem shardReplicas_nodup {q : ShardId} {l : List Replica} (h : t.shardReplicas name q = .ok l) :
    (l.map (·.peer)).Nodup := by
  simp only [shardReplicas, bind_eq_ok, shardsOf_eq_ok] at h
  obtain ⟨shards, hs, h⟩ := h
  cases hq : shards.get? q with
  | none => simp [hq, throw_eq_ok] at h
  | some peers =>
    simp only [hq, pure_eq_ok] at h
    subst h
    exact ofShard_nodup q peers

theorem shardReplicas_apart {q : ShardId} {l : List Replica} (h : t.shardReplicas name q = .ok l) :
    l.Pairwise (fun a b => ¬(a.shard = b.shard ∧ a.peer = b.peer)) :=
  (List.pairwise_map.1 (shardReplicas_nodup h)).imp fun hne hab => hne hab.2

/-- A shard with more than one replica has one on another peer. -/
theorem exists_other {q : ShardId} {p : PeerId} {l : List Replica} (h : t.shardReplicas name q = .ok l)
    (hp : (t.look name q p).isSome) (hl : l.length ≠ 1) :
    ∃ other, other ≠ p ∧ (t.look name q other).isSome := by
  have hmem : ∀ r ∈ l, (t.look name q r.peer).isSome := fun r hr => by
    simp [((shardReplicas_ok h).1 hr).2]
  obtain ⟨s, hs⟩ := Option.isSome_iff_exists.1 hp
  have hin : ⟨q, p, s⟩ ∈ l := (shardReplicas_ok h).2 ⟨rfl, hs⟩
  have hnodup := shardReplicas_nodup h
  match l, hmem, hin, hl, hnodup with
  | x :: y :: rest, hmem, _, _, hnodup =>
    by_cases hx : x.peer = p
    · refine ⟨y.peer, fun hy => ?_, hmem y (by simp)⟩
      simp [hx, hy] at hnodup
    · exact ⟨x.peer, hx, hmem x (by simp)⟩

theorem removeShard_redrawn {q : ShardId} {l : List Replica}
    (h : t.removeShard name q = .ok (t', l)) :
    Redrawn t t' name ((t.look name).without [q]) ∧
      ∀ r, r ∈ l ↔ r.shard = q ∧ t.look name r.shard r.peer = some r.state := by
  simp only [removeShard, bind_eq_ok, shardsOf_eq_ok, pure_eq_ok, Prod.mk.injEq] at h
  obtain ⟨shards, hs, rfl, rfl⟩ := h
  constructor
  · refine (putShards_redrawn (by simp [SortedMap.contains, hs]) ?_).congr ?_
    · intro ht q' peers hp
      rw [SortedMap.get?_erase] at hp
      split at hp
      · cases hp
      · exact ht name shards q' peers hs hp
    · intro q' p'
      rw [SortedMap.get?_erase, Layout.without, look, hs]
      by_cases hq : q' = q <;> simp [hq]
  · intro r
    cases hq : shards.get? q with
    | none =>
      constructor
      · intro hr
        cases hr
      · intro hr
        obtain ⟨rfl, hl⟩ := hr
        simp [look, hs, hq] at hl
    | some peers =>
      rw [mem_ofShard]
      constructor
      · intro hr
        obtain ⟨rfl, hl⟩ := hr
        exact ⟨rfl, by simpa [look, hs, hq] using hl⟩
      · intro hr
        obtain ⟨rfl, hl⟩ := hr
        exact ⟨rfl, by simpa [look, hs, hq] using hl⟩

theorem removeShard_apart {q : ShardId} {l : List Replica} (h : t.removeShard name q = .ok (t', l)) :
    l.Pairwise (fun a b => ¬(a.shard = b.shard ∧ a.peer = b.peer)) := by
  simp only [removeShard, bind_eq_ok, pure_eq_ok, Prod.mk.injEq] at h
  obtain ⟨shards, -, -, rfl⟩ := h
  cases shards.get? q with
  | none => exact .nil
  | some peers => exact ofShard_apart q peers

theorem removeShard_ok (h : t.collections.contains name = true) (q : ShardId) :
    ∃ t' l, t.removeShard name q = .ok (t', l) := by
  obtain ⟨shards, hs⟩ := SortedMap.contains_iff.1 h
  simp only [removeShard, bind_eq_ok, shardsOf_eq_ok, pure_eq_ok]
  exact ⟨_, _, shards, hs, rfl⟩

theorem mem_onPeer {peer : PeerId} {x : String × Replica} :
    x ∈ t.onPeer peer ↔ x.2.peer = peer ∧ t.look x.1 x.2.shard x.2.peer = some x.2.state := by
  obtain ⟨n, r⟩ := x
  simp only [onPeer, List.mem_flatMap, List.mem_map, List.mem_filter, mem_flatten, beq_iff_eq,
    Prod.exists, Prod.mk.injEq, look]
  constructor
  · rintro ⟨n', shards, hm, r', ⟨hl, hp⟩, rfl, rfl⟩
    simpa [SortedMap.mem_entries.1 hm, hp] using hl
  · rintro ⟨hp, hl⟩
    cases hs : t.collections.get? n with
    | none => simp [hs] at hl
    | some shards =>
      exact ⟨n, shards, SortedMap.mem_entries.2 hs, r, ⟨by simpa [hs] using hl, hp⟩, rfl, rfl⟩

/-- No replica is listed twice. -/
theorem flatten_apart (shards : CollectionReplicas) :
    (flatten shards).Pairwise (fun a b => ¬(a.shard = b.shard ∧ a.peer = b.peer)) := by
  exact SortedMap.pairwise_flatMap (fun e _ => ofShard_apart e.1 e.2) (·.shard)
    (fun e _ r hr => (mem_ofShard.1 hr).1) fun a b hne hab => hne hab.1

theorem onPeer_nodup (t : ReplicaTable) (peer : PeerId) :
    ((t.onPeer peer).map (fun x => (x.1, x.2.shard, peer))).Nodup := by
  refine List.pairwise_map.2 (SortedMap.pairwise_flatMap (fun e _ => ?_) (·.1) (fun e _ x hx => ?_)
    fun a b hne hab => hne (Prod.mk.inj hab).1)
  · refine List.pairwise_map.2 (((flatten_apart e.2).filter _).imp_of_mem fun {a b} ha hb hne hab => ?_)
    have hshard := (Prod.mk.inj (Prod.mk.inj hab).2).1
    have hpeer : ∀ {r : Replica}, r ∈ (flatten e.2).filter (·.peer == peer) → r.peer = peer :=
      fun hr => by simpa using (List.mem_filter.1 hr).2
    exact hne ⟨hshard, (hpeer ha).trans (hpeer hb).symm⟩
  · obtain ⟨r, -, rfl⟩ := List.mem_map.1 hx
    rfl

theorem look_register (n : String) : (t.register name).look n = t.look n := by
  unfold register
  split
  · rfl
  · rename_i h
    funext q p
    by_cases hn : n = name
    · subst hn
      have hnone : t.collections.get? n = none := by simpa [SortedMap.contains] using h
      simp [look, hnone]
    · simp [look, SortedMap.get?_insert_of_ne hn]

theorem contains_register (n : String) : (t.register name).collections.contains n = true ↔
    n = name ∨ t.collections.contains n = true := by
  unfold register
  split
  · rename_i h
    by_cases hn : n = name <;> simp [hn, h]
  · by_cases hn : n = name
    · simp [hn, SortedMap.contains]
    · simp [hn, SortedMap.contains, SortedMap.get?_insert_of_ne hn]

theorem Tidy.register (h : t.Tidy) (name : String) : (t.register name).Tidy := by
  intro n shards q peers hs hp
  unfold ReplicaTable.register at hs
  split at hs
  · exact h n shards q peers hs hp
  · by_cases hn : n = name
    · subst hn
      obtain rfl : SortedMap.empty = shards := by simpa using hs
      cases hp
    · rw [SortedMap.get?_insert_of_ne hn] at hs
      exact h n shards q peers hs hp

/-- What is left when a collection is forgotten, and what it had. -/
theorem removeCollection_spec (t : ReplicaTable) (name : String) :
    (t.removeCollection name).1.home = t.home ∧
    ((t.Tidy → (t.removeCollection name).1.Tidy)) ∧
    (∀ n, (t.removeCollection name).1.collections.get? n =
      if n = name then none else t.collections.get? n) ∧
    (∀ r, r ∈ (t.removeCollection name).2 ↔ t.look name r.shard r.peer = some r.state) := by
  unfold removeCollection
  cases hs : t.collections.get? name with
  | none =>
    refine ⟨rfl, id, fun n => ?_, fun r => by simp [look, hs]⟩
    by_cases hn : n = name <;> simp [hn, hs]
  | some shards =>
    refine ⟨rfl, fun ht n shards' q peers hs' hp => ?_, fun n => SortedMap.get?_erase _ _ _,
      fun r => by simp [mem_flatten, look, hs]⟩
    simp only [SortedMap.get?_erase] at hs'
    split at hs'
    · cases hs'
    · exact ht n shards' q peers hs' hp

end ReplicaTable
end ShardCluster
