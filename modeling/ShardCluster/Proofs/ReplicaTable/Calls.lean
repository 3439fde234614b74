import ShardCluster.Proofs.ReplicaTable.Flat
/-! The calls that change the replica table. On the flat table each of them writes or takes away entries and
does nothing else; the nested one gives the same replies all the way, and in every state the same views. -/
namespace ShardCluster
open SortedMap

inductive TableCall where
  | register (name : String)
  | insert (name : String) (shard : ShardId) (peer : PeerId) (state : ReplicaState)
  | setState (name : String) (shard : ShardId) (peer : PeerId) (state : ReplicaState)
  | remove (name : String) (shard : ShardId) (peer : PeerId)
  | removeShard (name : String) (shard : ShardId)
  | removeCollection (name : String)

/-- What a call that succeeds gives back. -/
inductive TableReply where
  | done
  | previous (state : ReplicaState)
  | removed (replicas : List Replica)

namespace ReplicaTable

def perform (t : ReplicaTable) : TableCall → Except Error (ReplicaTable × TableReply)
  | .register name => .ok (t.register name, .done)
  | .insert name shard peer state => do
    let t ← t.insert name shard peer state
    return (t, .done)
  | .setState name shard peer state => do
    let (t, old) ← t.setState name shard peer state
    return (t, .previous old)
  | .remove name shard peer => do
    let (t, old) ← t.remove name shard peer
    return (t, .previous old)
  | .removeShard name shard => do
    let (t, replicas) ← t.removeShard name shard
    return (t, .removed replicas)
  | .removeCollection name =>
    let (t, replicas) := t.removeCollection name
    .ok (t, .removed replicas)

/-- The table after a call; one that fails leaves it as it is. -/
def tried (t : ReplicaTable) (call : TableCall) : ReplicaTable :=
  match t.perform call with
  | .ok (t', _) => t'
  | .error _ => t

end ReplicaTable

namespace FlatTable

/-- A call changes the names, or the states under the keys that it speaks of. -/
def perform (f : FlatTable) : TableCall → Except Error (FlatTable × TableReply)
  | .register name => .ok ({ f with names := f.names.add name }, .done)
  | .insert name shard peer state =>
    f.within name (.ok ({ f with states := f.states.insert ⟨name, shard, peer⟩ state }, .done))
  | .setState name shard peer state => do
    let old ← f.state name shard peer
    return ({ f with states := f.states.insert ⟨name, shard, peer⟩ state }, .previous old)
  | .remove name shard peer => do
    let old ← f.state name shard peer
    return ({ f with states := f.states.erase ⟨name, shard, peer⟩ }, .previous old)
  | .removeShard name shard =>
    f.within name (.ok
      ({ f with states := f.states.filter (fun k _ => !(k.collection == name && k.shard == shard)) },
        .removed ((f.listed name).filter (·.shard == shard))))
  | .removeCollection name => .ok
    (⟨f.names.erase name, f.states.filter (fun k _ => k.collection != name)⟩, .removed (f.listed name))

def tried (f : FlatTable) (call : TableCall) : FlatTable :=
  match f.perform call with
  | .ok (f', _) => f'
  | .error _ => f

end FlatTable

namespace ReplicaTable
variable {t t' : ReplicaTable} {name : String} {l : Layout} {call : TableCall}

/-- A table and its reply, without the nesting. -/
def flatReply (x : ReplicaTable × TableReply) : FlatTable × TableReply := (x.1.flat, x.2)

theorem flatReply_ok {f : FlatTable} (h : t'.flat = f) (reply : TableReply) :
    flatReply <$> (.ok (t', reply) : Except Error (ReplicaTable × TableReply)) = .ok (f, reply) :=
  h ▸ rfl

theorem Redrawn.flat (h : Redrawn t t' name l) {m : SortedMap ReplicaKey ReplicaState}
    (hm : ∀ n q p, m.get? ⟨n, q, p⟩ = if n = name then l q p else t.look n q p) :
    t'.flat = { t.flat with states := m } := by
  refine FlatTable.ext_views (fun n => ?_) fun n q p => ?_
  · rw [flat_contains, h.known, ← flat_contains]
  · rw [flat_get?, hm]
    split
    · rename_i hn
      rw [hn, h.look]
    · rename_i hn
      rw [h.look_of_ne hn]

theorem register_flat (t : ReplicaTable) (name : String) :
    (t.register name).flat = { t.flat with names := t.flat.names.add name } := by
  refine FlatTable.ext_views (fun n => ?_) fun n q p => ?_
  · rw [Bool.eq_iff_iff, flat_contains, contains_register, SortedSet.contains_add, flat_contains]
  · rw [flat_get?, look_register, flat_get?]

theorem put_flat {q : ShardId} {p : PeerId} {s : ReplicaState}
    (h : Redrawn t t' name ((t.look name).put q p s)) :
    t'.flat = { t.flat with states := t.flat.states.insert ⟨name, q, p⟩ s } := by
  refine h.flat fun n q' p' => ?_
  rw [get?_insert, flat_get?, Layout.put]
  by_cases hn : n = name <;> simp [hn]

theorem cut_flat {q : ShardId} {p : PeerId} (h : Redrawn t t' name ((t.look name).cut q p)) :
    t'.flat = { t.flat with states := t.flat.states.erase ⟨name, q, p⟩ } := by
  refine h.flat fun n q' p' => ?_
  rw [get?_erase, flat_get?, Layout.cut]
  by_cases hn : n = name <;> simp [hn]

theorem without_flat {q : ShardId} (h : Redrawn t t' name ((t.look name).without [q])) :
    t'.flat = { t.flat with
      states := t.flat.states.filter (fun k _ => !(k.collection == name && k.shard == q)) } := by
  refine h.flat fun n q' p => ?_
  rw [get?_filter, flat_get?, Layout.without]
  by_cases hn : n = name <;> by_cases hq : q' = q <;> cases hl : t.look n q' p <;>
    simp_all [Option.filter]

theorem removeCollection_flat (t : ReplicaTable) (name : String) : (t.removeCollection name).1.flat =
    ⟨t.flat.names.erase name, t.flat.states.filter (fun k _ => k.collection != name)⟩ := by
  obtain ⟨-, -, hget, -⟩ := removeCollection_spec t name
  refine FlatTable.ext_views (fun n => ?_) fun n q p => ?_
  · rw [Bool.eq_iff_iff, flat_contains, SortedSet.contains_erase, flat_contains]
    by_cases hn : n = name <;> simp [SortedMap.contains, hget, hn]
  · rw [flat_get?, get?_filter, flat_get?]
    by_cases hn : n = name <;> cases hl : t.look n q p <;> simp_all [look, Option.filter]

theorem removeCollection_listed (t : ReplicaTable) (name : String) :
    (t.removeCollection name).2 = t.flat.listed name := by
  rw [listed_flat, removeCollection]
  cases t.collections.get? name <;> simp

/-- Without its nesting, the table goes through a call as the flat one does. -/
theorem perform_flat (t : ReplicaTable) (call : TableCall) :
    flatReply <$> t.perform call = t.flat.perform call := by
  cases call with
  | register name => exact flatReply_ok (register_flat t name) .done
  | insert name q p s =>
    refine eq_within (fun e he => ?_) fun shards hs => ?_
    · simp [perform, ReplicaTable.insert, he, bind, Except.bind, Functor.map, Except.map]
    · have hinsert : t.insert name q p s = .ok (t.putShards name
          (shards.insert q (((shards.get? q).getD .empty).insert p s))) := by
        simp [ReplicaTable.insert, hs, bind, Except.bind, pure, Except.pure]
      rw [perform, hinsert]
      exact flatReply_ok (put_flat (insert_redrawn hinsert)) .done
  | setState name q p s =>
    rw [FlatTable.perform, ← state_flat, perform]
    cases hold : t.state name q p with
    | error e => simp [setState, hold, bind, Except.bind, Functor.map, Except.map]
    | ok old =>
      obtain ⟨t', h⟩ := setState_ok s (state_eq_ok.1 hold)
      rw [h]
      exact flatReply_ok (put_flat (setState_redrawn h).2) (.previous old)
  | remove name q p =>
    rw [FlatTable.perform, ← state_flat, perform]
    cases hold : t.state name q p with
    | error e => simp [ReplicaTable.remove, hold, bind, Except.bind, Functor.map, Except.map]
    | ok old =>
      obtain ⟨t', h⟩ := remove_ok (state_eq_ok.1 hold)
      rw [h]
      exact flatReply_ok (cut_flat (remove_redrawn h).2) (.previous old)
  | removeShard name q =>
    refine eq_within (fun e he => ?_) fun shards hs => ?_
    · simp [perform, removeShard, he, bind, Except.bind, Functor.map, Except.map]
    · have hremove : t.removeShard name q = .ok (t.putShards name (shards.erase q),
          (t.flat.listed name).filter (·.shard == q)) := by
        rw [listed_of_get? (shardsOf_eq_ok.1 hs), flatten_filter_shard]
        cases hq : shards.get? q <;> simp [removeShard, hs, hq, bind, Except.bind, pure, Except.pure]
      rw [perform, hremove]
      exact flatReply_ok (without_flat (removeShard_redrawn hremove).1) (.removed _)
  | removeCollection name =>
    rw [perform, FlatTable.perform, ← removeCollection_listed]
    exact flatReply_ok (removeCollection_flat t name) (.removed (t.removeCollection name).2)

theorem tried_flat (t : ReplicaTable) (call : TableCall) : (t.tried call).flat = t.flat.tried call := by
  rw [FlatTable.tried, ← perform_flat, tried]
  cases t.perform call <;> rfl

theorem Redrawn.kept (h : Redrawn t t' name l) (ht : t.Tidy) : t'.Tidy ∧ t'.home = t.home :=
  ⟨h.tidy ht, h.home⟩

/-- A call leaves no shard without a replica, and the home of the table where it is. -/
theorem Tidy.performed {reply : TableReply} (ht : t.Tidy) (h : t.perform call = .ok (t', reply)) :
    t'.Tidy ∧ t'.home = t.home := by
  cases call with
  | register name =>
    obtain ⟨rfl, -⟩ := Prod.mk.inj (Except.ok.inj h)
    refine ⟨ht.register name, ?_⟩
    rw [ReplicaTable.register]
    split <;> rfl
  | insert name q p s =>
    simp only [perform, bind_eq_ok, pure_eq_ok, Prod.mk.injEq] at h
    obtain ⟨_, h, rfl, -⟩ := h
    exact (insert_redrawn h).kept ht
  | setState name q p s =>
    simp only [perform, bind_eq_ok, pure_eq_ok, Prod.mk.injEq] at h
    obtain ⟨_, h, rfl, -⟩ := h
    exact (setState_redrawn h).2.kept ht
  | remove name q p =>
    simp only [perform, bind_eq_ok, pure_eq_ok, Prod.mk.injEq] at h
    obtain ⟨_, h, rfl, -⟩ := h
    exact (remove_redrawn h).2.kept ht
  | removeShard name q =>
    simp only [perform, bind_eq_ok, pure_eq_ok, Prod.mk.injEq] at h
    obtain ⟨_, h, rfl, -⟩ := h
    exact (removeShard_redrawn h).1.kept ht
  | removeCollection name =>
    obtain ⟨rfl, -⟩ := Prod.mk.inj (Except.ok.inj h)
    obtain ⟨hhome, htidy, -, -⟩ := removeCollection_spec t name
    exact ⟨htidy ht, hhome⟩

theorem Tidy.tried (ht : t.Tidy) (call : TableCall) : (t.tried call).Tidy ∧ (t.tried call).home = t.home := by
  rw [ReplicaTable.tried]
  cases h : t.perform call with
  | error e => exact ⟨ht, rfl⟩
  | ok x => exact ht.performed h

/-- The nested table answers as the flat one does, whatever it is asked. -/
structure Mirrors (home : PeerId) (t : ReplicaTable) (f : FlatTable) : Prop where
  /-- A call succeeds on both or fails for the same reason. -/
  replies : ∀ call, (t.perform call).map (·.2) = (f.perform call).map (·.2)
  tidy : t.Tidy
  ascending : ∀ name, (f.listed name).Pairwise
    (fun a b => a.shard < b.shard ∨ a.shard = b.shard ∧ a.peer < b.peer)
  replicas : ∀ name, t.replicas name = f.replicas name
  split : ∀ name, t.split name = f.split home name
  shardReplicas : ∀ name shard, t.shardReplicas name shard = f.shardReplicas name shard
  state : ∀ name shard peer, t.state name shard peer = f.state name shard peer
  contains : ∀ name shard peer, t.contains name shard peer = f.states.contains ⟨name, shard, peer⟩
  countOn : ∀ name peer, t.countOn name peer = f.countOn name peer
  onPeer : ∀ peer, t.onPeer peer = f.onPeer peer

theorem Tidy.mirrors (ht : t.Tidy) : Mirrors t.home t t.flat where
  replies call := by
    rw [← perform_flat]
    cases t.perform call <;> rfl
  tidy := ht
  ascending := t.flat.listed_ascending
  replicas := t.replicas_flat
  split := t.split_flat
  shardReplicas := shardReplicas_flat ht
  state := t.state_flat
  contains := t.contains_flat
  countOn := t.countOn_flat
  onPeer := t.onPeer_flat

/-- Along the calls the flat table stays the nested one without its nesting. -/
theorem Tidy.foldl_tried (ht : t.Tidy) (calls : List TableCall) :
    (calls.foldl ReplicaTable.tried t).Tidy ∧ (calls.foldl ReplicaTable.tried t).home = t.home ∧
      (calls.foldl ReplicaTable.tried t).flat = calls.foldl FlatTable.tried t.flat := by
  induction calls generalizing t with
  | nil => exact ⟨ht, rfl, rfl⟩
  | cons call rest ih =>
    obtain ⟨hnext, hhome⟩ := ht.tried call
    obtain ⟨htidy, hhome', hflat⟩ := ih hnext
    rw [tried_flat] at hflat
    exact ⟨htidy, hhome'.trans hhome, hflat⟩

/-- Whatever calls have made a table, with those among them that failed, it is one map of replicas to
look at: the map that the same calls have made. -/
theorem mirrors_of_calls (home : PeerId) (calls : List TableCall) :
    Mirrors home (calls.foldl ReplicaTable.tried { home }) (calls.foldl FlatTable.tried {}) := by
  have hempty : (ReplicaTable.mk home .empty).Tidy := fun _ _ _ _ h => by cases h
  obtain ⟨htidy, hhome, hflat⟩ := hempty.foldl_tried calls
  have hstart : (ReplicaTable.mk home .empty).flat = {} := rfl
  rw [hstart] at hflat
  have hmirrors := htidy.mirrors
  rw [hhome, hflat] at hmirrors
  exact hmirrors

end ReplicaTable
end ShardCluster
