import ShardCluster.Proofs.ReplicaTable.Layout
/-! The replicas of all collections as one sorted map. Every answer of the nested table can be read off
it, as long as no shard is listed without a replica. -/
namespace ShardCluster
open Std SortedMap

/-- Where a replica stands among all others: by collection, then by shard, then by peer. -/
structure ReplicaKey where
  collection : String
  shard : ShardId
  peer : PeerId
  deriving DecidableEq

namespace ReplicaKey

theorem ext_parts {a b : ReplicaKey} (hc : a.collection = b.collection) (hs : a.shard = b.shard)
    (hp : a.peer = b.peer) : a = b := by
  cases a
  cases b
  simp_all

instance : Ord ReplicaKey where
  compare := compareLex (compareOn collection) (compareLex (compareOn shard) (compareOn peer))

instance : TransOrd ReplicaKey :=
  inferInstanceAs (TransCmp (compareLex (compareOn collection) (compareLex (compareOn shard) (compareOn peer))))

instance : LawfulEqOrd ReplicaKey where
  compare_self := ReflCmp.compare_self
  eq_of_compare {a b} h := by
    obtain ⟨hc, h⟩ := Ordering.then_eq_eq.1 h
    obtain ⟨hs, hp⟩ := Ordering.then_eq_eq.1 h
    exact ext_parts (LawfulEqOrd.eq_of_compare hc) (LawfulEqOrd.eq_of_compare hs)
      (LawfulEqOrd.eq_of_compare hp)

theorem compare_eq_lt {a b : ReplicaKey} : compare a b = .lt ↔
    compare a.collection b.collection = .lt ∨ a.collection = b.collection ∧
      (compare a.shard b.shard = .lt ∨ a.shard = b.shard ∧ compare a.peer b.peer = .lt) := by
  have hdef : compare a b = (compare a.collection b.collection).then
      ((compare a.shard b.shard).then (compare a.peer b.peer)) := rfl
  simp only [hdef, Ordering.then_eq_lt, LawfulEqOrd.compare_eq_iff_eq]

end ReplicaKey

/-- The names of the collections, and one map with the state of every replica. -/
structure FlatTable where
  names : SortedSet String := .empty
  states : SortedMap ReplicaKey ReplicaState := .empty

namespace FlatTable

theorem ext_views {f f' : FlatTable} (names : ∀ n, f.names.contains n = f'.names.contains n)
    (states : ∀ n q p, f.states.get? ⟨n, q, p⟩ = f'.states.get? ⟨n, q, p⟩) : f = f' := by
  have hnames : f.names = f'.names := SortedSet.ext_contains fun n => by rw [names]
  have hstates : f.states = f'.states := ext_get? fun k => states k.collection k.shard k.peer
  cases f
  cases f'
  simp_all

def replica (e : ReplicaKey × ReplicaState) : Replica := ⟨e.1.shard, e.1.peer, e.2⟩

/-- The replicas of one collection, in the order of the map. -/
def listed (f : FlatTable) (name : String) : List Replica :=
  (f.states.entries.filter (·.1.collection == name)).map replica

/-- An answer about a collection, if it is known. -/
def within {α : Type} (f : FlatTable) (name : String) (answer : Except Error α) : Except Error α :=
  if f.names.contains name then answer else .error (.collectionNotFound name)

def replicas (f : FlatTable) (name : String) : Except Error (List Replica) :=
  f.within name (.ok (f.listed name))

def split (f : FlatTable) (home : PeerId) (name : String) : Except Error (List Replica × List Replica) :=
  f.within name (.ok ((f.listed name).filter (·.peer == home), (f.listed name).filter (·.peer != home)))

def shardReplicas (f : FlatTable) (name : String) (shard : ShardId) : Except Error (List Replica) :=
  f.within name (match (f.listed name).filter (·.shard == shard) with
    | [] => .error (.shardNotFound shard)
    | here => .ok here)

def state (f : FlatTable) (name : String) (shard : ShardId) (peer : PeerId) : Except Error ReplicaState :=
  f.within name (match f.states.get? ⟨name, shard, peer⟩ with
    | some state => .ok state
    | none => .error (.replicaNotFound shard peer))

def countOn (f : FlatTable) (name : String) (peer : PeerId) : Nat :=
  ((f.listed name).filter (·.peer == peer)).length

def onPeer (f : FlatTable) (peer : PeerId) : List (String × Replica) :=
  (f.states.entries.filter (·.1.peer == peer)).map (fun e => (e.1.collection, replica e))

/-- The order of a listing: by shard, then by peer, and no replica twice. -/
theorem listed_ascending (f : FlatTable) (name : String) : (f.listed name).Pairwise
    (fun a b => a.shard < b.shard ∨ a.shard = b.shard ∧ a.peer < b.peer) := by
  refine List.pairwise_map.2 ((f.states.ascending.filter _).imp_of_mem fun {a b} ha hb h => ?_)
  have hsame : a.1.collection = b.1.collection :=
    (beq_iff_eq.1 (List.mem_filter.1 ha).2).trans (beq_iff_eq.1 (List.mem_filter.1 hb).2).symm
  obtain hlt | ⟨-, hlt | ⟨hshard, hlt⟩⟩ := ReplicaKey.compare_eq_lt.1 h
  · rw [hsame, ReflOrd.compare_self] at hlt
    cases hlt
  · exact .inl (compareOfLessAndEq_eq_lt.1 hlt)
  · exact .inr ⟨hshard, compareOfLessAndEq_eq_lt.1 hlt⟩

theorem mem_listed {f : FlatTable} {name : String} {r : Replica} :
    r ∈ f.listed name ↔ f.states.get? ⟨name, r.shard, r.peer⟩ = some r.state := by
  rw [← mem_entries]
  simp only [listed, List.mem_map, List.mem_filter, beq_iff_eq]
  constructor
  · rintro ⟨e, ⟨he, rfl⟩, rfl⟩
    exact he
  · intro h
    exact ⟨_, ⟨h, rfl⟩, rfl⟩

/-- A peer has a shard of a collection once. -/
theorem listed_on_nodup (f : FlatTable) (name : String) (p : PeerId) :
    (((f.listed name).filter (·.peer == p)).map (·.shard)).Nodup := by
  refine List.pairwise_map.2 (((f.listed_ascending name).filter _).imp_of_mem fun {a b} ha hb h he => ?_)
  have hsame : a.peer = b.peer :=
    (beq_iff_eq.1 (List.mem_filter.1 ha).2).trans (beq_iff_eq.1 (List.mem_filter.1 hb).2).symm
  simp [he, hsame] at h

end FlatTable

namespace ReplicaTable
variable {t t' : ReplicaTable} {name : String} {l : Layout}

def keyed (name : String) (r : Replica) : ReplicaKey × ReplicaState := (⟨name, r.shard, r.peer⟩, r.state)

theorem flatten_keyed_ascending (name : String) (shards : CollectionReplicas) :
    ((flatten shards).map (keyed name)).Pairwise (fun a b => compare a.1 b.1 = .lt) := by
  refine List.pairwise_map.2 (List.pairwise_flatMap.2 ⟨fun e _ => ?_, ?_⟩)
  · refine List.pairwise_map.2 (e.2.ascending.imp fun h => ?_)
    exact ReplicaKey.compare_eq_lt.2 (.inr ⟨rfl, .inr ⟨rfl, h⟩⟩)
  · refine shards.ascending.imp fun {a b} h x hx y hy => ?_
    refine ReplicaKey.compare_eq_lt.2 (.inr ⟨rfl, .inl ?_⟩)
    rw [keyed, keyed, (mem_ofShard.1 hx).1, (mem_ofShard.1 hy).1]
    exact h

def keyedEntries (t : ReplicaTable) : List (ReplicaKey × ReplicaState) :=
  t.collections.entries.flatMap (fun e => (flatten e.2).map (keyed e.1))

theorem collection_of_keyed {shards : CollectionReplicas} {x : ReplicaKey × ReplicaState}
    (h : x ∈ (flatten shards).map (keyed name)) : x.1.collection = name := by
  obtain ⟨r, -, rfl⟩ := List.mem_map.1 h
  rfl

theorem keyedEntries_ascending (t : ReplicaTable) :
    t.keyedEntries.Pairwise (fun a b => compare a.1 b.1 = .lt) := by
  refine List.pairwise_flatMap.2 ⟨fun e _ => flatten_keyed_ascending e.1 e.2, ?_⟩
  refine t.collections.ascending.imp fun {a b} h x hx y hy => ?_
  refine ReplicaKey.compare_eq_lt.2 (.inl ?_)
  rw [collection_of_keyed hx, collection_of_keyed hy]
  exact h

/-- The table without its nesting. -/
def flat (t : ReplicaTable) : FlatTable where
  names := t.collections.map (fun _ _ => ())
  states := ⟨t.keyedEntries, t.keyedEntries_ascending⟩

@[simp] theorem flat_contains (t : ReplicaTable) (n : String) :
    t.flat.names.contains n = t.collections.contains n := by
  simp [flat, SortedMap.contains]

theorem mem_keyedEntries {x : ReplicaKey × ReplicaState} :
    x ∈ t.keyedEntries ↔ t.look x.1.collection x.1.shard x.1.peer = some x.2 := by
  obtain ⟨⟨n, q, p⟩, s⟩ := x
  simp only [keyedEntries, List.mem_flatMap, List.mem_map, mem_flatten, look, Prod.exists]
  constructor
  · rintro ⟨n', shards, hm, r, hr, he⟩
    obtain ⟨⟨rfl, rfl, rfl⟩, rfl⟩ : (n' = n ∧ r.shard = q ∧ r.peer = p) ∧ r.state = s := by
      simpa [keyed] using he
    rw [mem_entries.1 hm]
    exact hr
  · intro h
    obtain ⟨peers, hp, hs⟩ := Option.bind_eq_some_iff.1 h
    obtain ⟨shards, hn, hq⟩ := Option.bind_eq_some_iff.1 hp
    exact ⟨n, shards, mem_entries.2 hn, ⟨q, p, s⟩, by simp [hq, hs], rfl⟩

@[simp] theorem flat_get? (t : ReplicaTable) (n : String) (q : ShardId) (p : PeerId) :
    t.flat.states.get? ⟨n, q, p⟩ = t.look n q p :=
  Option.ext fun _ => mem_entries.symm.trans mem_keyedEntries

theorem listed_flat (t : ReplicaTable) (name : String) :
    t.flat.listed name = (t.collections.get? name).toList.flatMap flatten := by
  have hone : ∀ shards : CollectionReplicas,
      ((flatten shards).map (keyed name)).map FlatTable.replica = flatten shards := by
    intro shards
    rw [List.map_map]
    exact List.map_id _
  have hkeyed : t.keyedEntries.filter (·.1.collection == name) =
      (t.collections.get? name).toList.flatMap (fun shards => (flatten shards).map (keyed name)) :=
    filter_flatMap t.collections (fun x : ReplicaKey × ReplicaState => x.1.collection)
      (fun _ _ _ => collection_of_keyed) name
  simp only [FlatTable.listed, flat, hkeyed, List.map_flatMap, hone]

theorem listed_of_get? {shards : CollectionReplicas} (h : t.collections.get? name = some shards) :
    t.flat.listed name = flatten shards := by
  simp [listed_flat, h]

/-- Unknown collections are refused, and the others answer from what they hold. -/
theorem eq_within {α : Type} {x answer : Except Error α}
    (hbad : ∀ e, t.shardsOf name = .error e → x = .error e)
    (hgood : ∀ shards, t.shardsOf name = .ok shards → x = answer) : x = t.flat.within name answer := by
  rw [FlatTable.within, flat_contains]
  cases hs : t.collections.get? name with
  | none =>
    have hshards : t.shardsOf name = .error (.collectionNotFound name) := by rw [shardsOf, hs]
    simp [SortedMap.contains, hs, hbad _ hshards]
  | some shards => simp [SortedMap.contains, hs, hgood shards (shardsOf_eq_ok.2 hs)]

theorem bind_shardsOf {α : Type} {answer : Except Error α} {f : CollectionReplicas → Except Error α}
    (h : ∀ shards, t.collections.get? name = some shards → f shards = answer) :
    (t.shardsOf name >>= f) = t.flat.within name answer := by
  refine eq_within (fun e he => ?_) fun shards hs => ?_
  · rw [he]
    rfl
  · rw [hs]
    exact h shards (shardsOf_eq_ok.1 hs)

theorem replicas_flat (t : ReplicaTable) (name : String) : t.replicas name = t.flat.replicas name :=
  bind_shardsOf fun shards h => by simp [listed_of_get? h, pure, Except.pure]

theorem split_flat (t : ReplicaTable) (name : String) : t.split name = t.flat.split t.home name :=
  bind_shardsOf fun shards h => by
    simp [listed_of_get? h, pure, Except.pure, List.partition_eq_filter_filter, bne, Function.comp_def]

theorem state_flat (t : ReplicaTable) (name : String) (q : ShardId) (p : PeerId) :
    t.state name q p = t.flat.state name q p :=
  bind_shardsOf fun shards h => by
    rw [flat_get?, look, h, Option.bind_some]
    cases (shards.get? q).bind (·.get? p) <;> rfl

theorem contains_flat (t : ReplicaTable) (name : String) (q : ShardId) (p : PeerId) :
    t.contains name q p = t.flat.states.contains ⟨name, q, p⟩ := by
  rw [contains_eq, SortedMap.contains, flat_get?]

theorem onPeer_flat (t : ReplicaTable) (peer : PeerId) : t.onPeer peer = t.flat.onPeer peer := by
  simp only [onPeer, FlatTable.onPeer, flat, keyedEntries, List.filter_flatMap, List.map_flatMap,
    List.filter_map, List.map_map]
  rfl

theorem flatten_filter_shard (shards : CollectionReplicas) (q : ShardId) :
    (flatten shards).filter (·.shard == q) = (shards.get? q).toList.flatMap (ofShard q) :=
  filter_flatMap shards (·.shard) (fun _ _ _ hr => (mem_ofShard.1 hr).1) q

theorem shardReplicas_flat (ht : t.Tidy) (name : String) (q : ShardId) :
    t.shardReplicas name q = t.flat.shardReplicas name q :=
  bind_shardsOf fun shards h => by
    rw [listed_of_get? h, flatten_filter_shard]
    cases hq : shards.get? q with
    | none => rfl
    | some peers =>
      have hne := ht name shards q peers h hq
      cases hl : ofShard q peers with
      | nil => simp_all [ofShard, SortedMap.isEmpty]
      | cons r rest => simp [hl, pure, Except.pure]

theorem mem_listed_on {q : ShardId} {p : PeerId} :
    q ∈ ((t.flat.listed name).filter (·.peer == p)).map (·.shard) ↔ (t.look name q p).isSome := by
  simp only [List.mem_map, List.mem_filter, FlatTable.mem_listed, flat_get?, beq_iff_eq,
    Option.isSome_iff_exists]
  constructor
  · rintro ⟨r, ⟨hl, rfl⟩, rfl⟩
    exact ⟨r.state, hl⟩
  · rintro ⟨s, hl⟩
    exact ⟨⟨q, p, s⟩, ⟨hl, rfl⟩, rfl⟩

/-- A shard counts for a peer once, if the peer has it. -/
theorem length_ofShard_filter (q : ShardId) (peers : ShardReplicas) (p : PeerId) :
    ((ofShard q peers).filter (·.peer == p)).length = if peers.contains p then 1 else 0 := by
  have hkeys : p ∈ (ofShard q peers).map (·.peer) ↔ peers.contains p = true := by
    rw [contains_iff, ← mem_keys]
    simp [ofShard, SortedMap.keys]
  calc ((ofShard q peers).filter (·.peer == p)).length
      = ((ofShard q peers).map (·.peer)).count p := by
        rw [List.count, List.countP_map, List.countP_eq_length_filter]
        rfl
    _ = if p ∈ (ofShard q peers).map (·.peer) then 1 else 0 := (ofShard_nodup q peers).count
    _ = if peers.contains p then 1 else 0 := by simp only [hkeys]

theorem countOn_flat (t : ReplicaTable) (name : String) (p : PeerId) :
    t.countOn name p = t.flat.countOn name p := by
  have hlist : ∀ shards : List (ShardId × ShardReplicas),
      ((shards.map (·.2)).filter (·.contains p)).length =
        ((shards.flatMap (fun e => ofShard e.1 e.2)).filter (·.peer == p)).length := by
    intro shards
    induction shards with
    | nil => rfl
    | cons e rest ih =>
      rw [List.flatMap_cons, List.filter_append, List.length_append, length_ofShard_filter, ← ih]
      cases h : e.2.contains p <;> simp [h, Nat.add_comm]
  rw [countOn, FlatTable.countOn, listed_flat]
  cases t.collections.get? name with
  | none => rfl
  | some shards => simpa [flatten, values] using hlist shards.entries

end ReplicaTable
end ShardCluster
