import ShardCluster.Proofs.Cluster.Apply
import ShardCluster.Proofs.Placement.RoundRobin
import ShardCluster.Proofs.ReplicaTable.Flat
/-! A collection that is new has the replicas of its placement and no others. Placed round-robin, they are
spread evenly over the peers of the cluster. -/
namespace ShardCluster
open SortedMap

namespace Placement
variable {placement : Placement} {p : PeerId}

/-- Where no shard has a host twice, a peer has as many replicas as there are shards that it hosts. -/
theorem load_eq_length (h : ∀ q hosts, placement.get? q = some hosts → hosts.Nodup) (p : PeerId) :
    placement.load p = (placement.entries.filter (fun e => e.2.contains p)).length := by
  have hsum : ∀ l : List (ShardId × List PeerId), (∀ e ∈ l, e.2.Nodup) →
      (l.map (·.2)).flatten.count p = (l.filter (fun e => e.2.contains p)).length := by
    intro l hl
    induction l with
    | nil => rfl
    | cons e rest ih =>
      obtain ⟨he, hrest⟩ := List.forall_mem_cons.1 hl
      rw [List.map_cons, List.flatten_cons, List.count_append, he.count, ih hrest]
      by_cases hp : p ∈ e.2 <;> simp [hp, Nat.add_comm]
  exact hsum placement.entries fun e he => h e.1 e.2 (mem_entries.1 he)

end Placement

namespace ReplicaTable
variable {t : ReplicaTable} {name : String} {placement : Placement} {q : ShardId} {hosts : List PeerId}

theorem placed_eq_some {p : PeerId} {s : ReplicaState} : Layout.none.placed placement q p = some s ↔
    s = .active ∧ ∃ hosts, placement.get? q = some hosts ∧ p ∈ hosts := by
  cases hq : placement.get? q with
  | none => simp [Layout.placed, Layout.none, hq]
  | some hosts => by_cases hp : p ∈ hosts <;> simp [Layout.placed, Layout.none, hq, hp, eq_comm]

section
variable (h : t.look name = Layout.none.placed placement)
include h

/-- Each shard has an active replica on each of its hosts. -/
theorem shardReplicas_placed (hq : placement.get? q = some hosts) (hne : hosts ≠ [])
    (hn : hosts.Nodup) : ∃ here, t.shardReplicas name q = .ok here ∧ here.length = hosts.length ∧
      ∀ r ∈ here, r.state = .active := by
  have hlook : ∀ p s, t.look name q p = some s ↔ s = .active ∧ p ∈ hosts := by
    intro p s
    rw [h, placed_eq_some]
    simp [hq]
  obtain ⟨p, hp⟩ := List.exists_mem_of_ne_nil _ hne
  obtain ⟨here, hhere⟩ := shardReplicas_of_look ((hlook p .active).2 ⟨rfl, hp⟩)
  have hmem : ∀ r, r ∈ here ↔ r.shard = q ∧ r.state = .active ∧ r.peer ∈ hosts := fun r => by
    rw [shardReplicas_ok hhere, hlook]
  have hperm : (here.map (·.peer)).Perm hosts := by
    refine (List.perm_ext_iff_of_nodup (shardReplicas_nodup hhere) hn).2 fun p => ?_
    rw [List.mem_map]
    constructor
    · rintro ⟨r, hr, rfl⟩
      exact ((hmem r).1 hr).2.2
    · exact fun hp => ⟨⟨q, p, .active⟩, (hmem _).2 ⟨rfl, rfl, hp⟩, rfl⟩
  refine ⟨here, hhere, ?_, fun r hr => ((hmem r).1 hr).2.1⟩
  rw [← hperm.length_eq, List.length_map]

/-- A peer has as many shards of the collection as the placement puts on it. -/
theorem countOn_placed (hn : ∀ q hosts, placement.get? q = some hosts → hosts.Nodup) (p : PeerId) :
    t.countOn name p = placement.load p := by
  have hshards : (((t.flat.listed name).filter (·.peer == p)).map (·.shard)).Perm
      ((placement.entries.filter (fun e => e.2.contains p)).map (·.1)) := by
    refine (List.perm_ext_iff_of_nodup (t.flat.listed_on_nodup name p)
      (List.pairwise_map.2 (placement.entries_apart.filter _))).2 fun q => ?_
    rw [mem_listed_on, h, Option.isSome_iff_exists]
    simp only [placed_eq_some, List.mem_map, List.mem_filter, List.contains_iff_mem, Prod.exists]
    constructor
    · rintro ⟨s, -, hosts, hq, hp⟩
      exact ⟨q, hosts, ⟨mem_entries.2 hq, hp⟩, rfl⟩
    · rintro ⟨q, hosts, ⟨hm, hp⟩, rfl⟩
      exact ⟨.active, rfl, hosts, mem_entries.1 hm, hp⟩
  rw [countOn_flat, FlatTable.countOn, placement.load_eq_length hn]
  simpa only [List.length_map] using hshards.length_eq

end
end ReplicaTable

namespace Cluster
open ReplicaTable
variable {c : Cluster} {name : String} {config : CollectionConfig} {placement : Placement}

theorem checkPlacement_of_known {l : List (ShardId × List PeerId)}
    (h : ∀ e ∈ l, e.2 ≠ [] ∧ ∀ p ∈ e.2, c.peers.contains p = true) : c.checkPlacement l = .ok () := by
  induction l with
  | nil => rfl
  | cons e rest ih =>
    obtain ⟨⟨hne, hknown⟩, hrest⟩ := List.forall_mem_cons.1 h
    have hfind : e.2.find? (fun p => !c.peers.contains p) = none :=
      List.find?_eq_none.2 fun p hp => by simp [hknown p hp]
    have hempty : e.2.isEmpty = false := by simpa using hne
    simp [checkPlacement, hempty, hfind, ih hrest]

/-- A new collection is accepted with any placement on known peers, and gets the replicas of it. -/
theorem createCollection_of_known (hs : c.Sound) (hnew : c.collections.contains name = false)
    (hauto : config.method = .auto) (hshards : config.shardNumber ≠ 0)
    (hfactor : config.replicationFactor ≠ 0) (hne : placement.isEmpty = false)
    (hknown : ∀ e ∈ placement.entries, e.2 ≠ [] ∧ ∀ p ∈ e.2, c.peers.contains p = true) :
    ∃ c', c.apply (.createCollection name config placement) = .ok (c', {}) ∧
      c'.replicas.look name = Layout.none.placed placement := by
  have hregistered : (c.replicas.register name).collections.contains name = true :=
    (contains_register name).2 (.inl rfl)
  obtain ⟨table, htable⟩ := insertPlacement_ok hregistered placement
  have hnone : c.collections.get? name = none := by simpa [SortedMap.contains] using hnew
  have hempty : c.replicas.look name = Layout.none := congrArg Face.look (hs.face_none hnone)
  have hlook := (insertPlacement_redrawn htable).look_eq
  rw [look_register, hempty] at hlook
  let groups : SortedMap (Option ShardKey) Router :=
    SortedMap.empty.insert none (Router.single (.ofShards c.ringPositions placement.keys))
  refine ⟨{ c with
    replicas := table
    collections := c.collections.insert name { config, groups } }, ?_, hlook⟩
  exact createCollection_eq_ok.2 ⟨hnew, by simp [hshards, hfactor], checkPlacement_of_known hknown, groups,
    table, .inl ⟨hauto, hne, rfl⟩, htable, rfl, rfl⟩

end Cluster

namespace Placement
open Cluster ReplicaTable

/-- A cluster accepts a new collection with the placement. Each of the shards then has `factor` replicas,
all of them active, and every peer has as many as the placement puts on it. -/
def Taken (placement : Placement) (c : Cluster) (name : String) (config : CollectionConfig)
    (shards : List ShardId) (factor : Nat) : Prop :=
  ∃ c', c.apply (.createCollection name config placement) = .ok (c', {}) ∧
    (∀ s ∈ shards, ∃ here, c'.replicas.shardReplicas name s = .ok here ∧ here.length = factor ∧
      ∀ r ∈ here, r.state = .active) ∧
    ∀ p, c'.replicas.countOn name p = placement.load p

theorem Balanced.taken {placement : Placement} {peers : List PeerId} {factor : Nat} {shards : List ShardId}
    (hb : Balanced peers factor shards placement) (hpos : 0 < factor) (hne : shards ≠ []) {c : Cluster}
    (hs : c.Sound) (hpeers : ∀ p ∈ peers, c.peers.contains p = true) {name : String}
    (hnew : c.collections.contains name = false) {config : CollectionConfig}
    (hauto : config.method = .auto) (hnumber : config.shardNumber ≠ 0)
    (hfactor : config.replicationFactor ≠ 0) : placement.Taken c name config shards factor := by
  have hhosts : ∀ q hosts, placement.get? q = some hosts → hosts ≠ [] := by
    intro q hosts hq hnil
    have hlen := (hb.hosts q hosts hq).1
    rw [hnil] at hlen
    exact Nat.ne_of_lt hpos hlen
  have hsome : placement.isEmpty = false := by
    rw [← hb.keys] at hne
    simpa [SortedMap.keys, SortedMap.isEmpty] using hne
  obtain ⟨c', hc', hlook⟩ := createCollection_of_known hs hnew hauto hnumber hfactor hsome fun e he =>
    ⟨hhosts e.1 e.2 (mem_entries.1 he),
      fun p hp => hpeers p ((hb.hosts e.1 e.2 (mem_entries.1 he)).2.2 p hp)⟩
  refine ⟨c', hc', fun s hin => ?_, countOn_placed hlook fun q hosts hq => (hb.hosts q hosts hq).2.1⟩
  rw [← hb.keys] at hin
  obtain ⟨hosts, hq⟩ := mem_keys.1 hin
  obtain ⟨hlen, hnodup, -⟩ := hb.hosts s hosts hq
  rw [← hlen]
  exact shardReplicas_placed hlook hq (hhosts s hosts hq) hnodup

/-- Shards are dealt out round-robin wherever there are replicas to place and peers enough for those of one
shard. The peers then share the replicas evenly, and a cluster of these peers takes them for a new
collection. -/
theorem roundRobin_balanced {peers : List PeerId} {shards : List ShardId} (hn : peers.Nodup)
    (hs : Consecutive shards) (factor : UInt32) :
    ((∃ e, roundRobin shards peers factor = .error e) ↔
      peers.length = 0 ∨ factor.toNat = 0 ∨ peers.length < factor.toNat) ∧
    ∀ placement, roundRobin shards peers factor = .ok placement →
      Balanced peers factor.toNat shards placement ∧
      ∀ {allowed : Cluster → Entry → Prop} {c : Cluster} {name : String} {config : CollectionConfig},
        Reached allowed c → (∀ p ∈ peers, c.peers.contains p = true) →
        c.collections.contains name = false → shards ≠ [] → config.method = .auto →
        config.shardNumber ≠ 0 → config.replicationFactor = factor →
        placement.Taken c name config shards factor.toNat := by
  refine ⟨roundRobin_eq_error, fun placement h => ?_⟩
  obtain ⟨hpos, hf, rfl⟩ := roundRobin_eq_ok h
  have hb := balanced_dealt hn hf hs
  refine ⟨hb, fun hc hpeers hnew hne hauto hnumber hfactor => ?_⟩
  have hzero : factor ≠ 0 := fun hz => by simp [hz] at hpos
  exact hb.taken hpos hne hc.sound hpeers hnew hauto hnumber (hfactor ▸ hzero)

/-- Shards on four of five peers, each with three replicas: six shards, and as many as make two turns. -/
def gathered : Except Error (Cluster × Placement × Placement) := do
  let c ← replay 1 1 [.addPeer 7, .addPeer 2, .addPeer 1, .addPeer 9, .addPeer 4]
  return (c, ← roundRobin (consecutive 3 6) [7, 2, 9, 4] 3, ← roundRobin (consecutive 3 8) [7, 2, 9, 4] 3)

theorem roundRobin_balanced_gathered : ∃ c six eight, gathered = .ok (c, six, eight) ∧
    six.entries = [(3, [4, 7, 2]), (4, [7, 2, 9]), (5, [2, 9, 4]), (6, [9, 4, 7]), (7, [4, 7, 2]),
      (8, [7, 2, 9])] ∧
    six.load 7 ≤ six.load 4 + 1 ∧ eight.load 7 = eight.load 4 ∧
    six.Taken c "points" { shardNumber := 6, replicationFactor := 3 } (consecutive 3 6) 3 := by
  have hrun : gathered.toOption.map (fun x => (x.2.1.entries, [7, 2, 9, 4].all x.1.peers.contains,
      x.1.collections.contains "points")) = some ([(3, [4, 7, 2]), (4, [7, 2, 9]), (5, [2, 9, 4]),
        (6, [9, 4, 7]), (7, [4, 7, 2]), (8, [7, 2, 9])], true, false) := by
    decide +kernel
  obtain ⟨⟨c, six, eight⟩, hok, hrun⟩ := toOption_map_eq_some.1 hrun
  obtain ⟨hentries, hrun⟩ := Prod.mk.inj hrun
  obtain ⟨hpeers, hnew⟩ := Prod.mk.inj hrun
  refine ⟨c, six, eight, hok, hentries, ?_⟩
  simp only [gathered, bind_eq_ok, pure_eq_ok, Prod.mk.injEq] at hok
  obtain ⟨_, hreplay, _, hsix, _, height, rfl, rfl, rfl⟩ := hok
  have hreached : Reached (fun _ _ => True) _ := (Reached.new 1 1).applyAll (by simp) hreplay
  have hn : [(7 : PeerId), 2, 9, 4].Nodup := by decide
  obtain ⟨hb, htaken⟩ := (roundRobin_balanced hn (consecutive_numbered (by decide)) 3).2 _ hsix
  obtain ⟨hb', -⟩ := (roundRobin_balanced hn (consecutive_numbered (by decide)) 3).2 _ height
  refine ⟨hb.near 7 (by simp) 4 (by simp), hb'.level (by decide) 7 (by simp) 4 (by simp), ?_⟩
  exact htaken hreached (fun p hp => List.all_eq_true.1 hpeers p hp) hnew (by decide) rfl (by decide) rfl

end Placement
end ShardCluster
