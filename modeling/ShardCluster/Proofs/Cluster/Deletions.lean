import ShardCluster.Proofs.Cluster.ForcedAborts
import ShardCluster.Proofs.Cluster.Groups
/-! What a deletion takes out of a cluster, once no operation needs it: the groups and replicas of the
part that goes, the transfers that end there, and the copies that those leave incomplete. -/
namespace ShardCluster
open SortedMap

/-- The groups that an event takes away. -/
def TopologyEvent.Covers (event : TopologyEvent) (name : String) (key : Option ShardKey) : Prop :=
  match event with
  | .collectionDeleted n => name = n
  | .shardKeyDeleted n k => name = n ∧ key = some k
  | .peerRemoved .. => False

/-- Whole shards are copied while there is no operation, and the copies are incomplete. -/
theorem Face.Fits.copies {F : Face} (h : F.Fits) {t : Transfer} (ht : t ∈ F.transfers)
    (hm : t.resharding = false) : F.operation = none ∧ t.Copies F.look := by
  obtain ⟨coll, op, l⟩ := F
  cases coll with
  | none => cases ht
  | some coll =>
    obtain rfl := (h.fit coll rfl).operation_none h.agrees ht hm
    exact ⟨rfl, h.idle.2 t ht⟩

/-- Slices are copied for an operation. -/
theorem Face.Fits.live_of_slice {F : Face} (h : F.Fits) {t : Transfer} (ht : t ∈ F.transfers)
    (hm : t.resharding = true) : ∃ o, F.operation = some o := by
  obtain ⟨coll, op, l⟩ := F
  cases op with
  | some o => exact ⟨o, rfl⟩
  | none =>
    cases coll with
    | none => cases ht
    | some coll =>
      rw [(h.idle.2 t ht).whole] at hm
      cases hm

namespace Cluster
variable {c c' : Cluster} {name : String} {event : TopologyEvent} {peer : PeerId} {key : ShardKey}

/-- The replicas that an event takes away. -/
def Owns (c : Cluster) (event : TopologyEvent) (name : String) (q : ShardId) (p : PeerId) : Prop :=
  match event with
  | .collectionDeleted n => name = n
  | .shardKeyDeleted n key => name = n ∧ ∃ r, c.router n (some key) = .ok r ∧ q ∈ r.shards
  | .peerRemoved peer _ => p = peer

/-- One end of the transfer goes. -/
def Cuts (c : Cluster) (event : TopologyEvent) (name : String) (t : Transfer) : Prop :=
  c.Owns event name t.key.shard t.key.source ∨ c.Owns event name t.key.toShard t.key.target

/-- The replica is an incomplete copy of one that goes. -/
def Strands (c : Cluster) (event : TopologyEvent) (name : String) (q : ShardId) (p : PeerId) : Prop :=
  ∃ t ∈ c.transfers name, t.resharding = false ∧ c.Owns event name t.key.shard t.key.source ∧
    t.key.destination = (q, p)

/-- A collection without what the event takes away. -/
structure ClearedAt (c : Cluster) (event : TopologyEvent) (c' : Cluster) (name : String) : Prop where
  config : ∀ coll coll', c.collections.get? name = some coll → c'.collections.get? name = some coll' →
    coll'.config = coll.config
  operation : c'.operation? name = c.operation? name
  routers : ∀ key r, c'.router name key = .ok r ↔ ¬event.Covers name key ∧ c.router name key = .ok r
  ordered : (c'.transfers name).Sublist (c.transfers name)
  transfers : ∀ t, t ∈ c'.transfers name ↔ t ∈ c.transfers name ∧ ¬c.Cuts event name t
  gone : ∀ q p, c.Owns event name q p ∨ c.Strands event name q p → c'.replicas.look name q p = none
  kept : ∀ q p, ¬c.Owns event name q p → ¬c.Strands event name q p →
    c'.replicas.look name q p = c.replicas.look name q p

/-- A cluster without what the event takes away. -/
structure Cleared (c : Cluster) (event : TopologyEvent) (c' : Cluster) : Prop where
  peers : ∀ p, c'.peers.contains p = true ↔
    c.peers.contains p = true ∧ ∀ force, event ≠ .peerRemoved p force
  epoch : c'.epoch = c.epoch
  ringPositions : c'.ringPositions = c.ringPositions
  home : c'.replicas.home = c.replicas.home
  collections : ∀ n, c'.collections.contains n = true ↔
    c.collections.contains n = true ∧ event ≠ .collectionDeleted n
  each : ∀ n, ClearedAt c event c' n

theorem router_face {c c' : Cluster} {name : String} (h : c'.face name = c.face name)
    (key : Option ShardKey) : c'.router name key = c.router name key := by
  have hc : c'.collections.get? name = c.collections.get? name := congrArg Face.collection h
  simp only [Cluster.router, Cluster.collection, hc]

/-- The event is about another collection. -/
theorem ClearedAt.of_face (h : c'.face name = c.face name) (hc : ∀ key, ¬event.Covers name key)
    (ho : ∀ q p, ¬c.Owns event name q p) : ClearedAt c event c' name := by
  have htransfers : c'.transfers name = c.transfers name := by
    rw [transfers_face, transfers_face, h]
  refine ⟨fun coll coll' hcoll hcoll' => ?_, congrArg Face.operation h, fun key r => ?_, ?_, fun t => ?_,
    fun q p hgone => ?_, fun q p _ _ => congrFun (congrFun (congrArg Face.look h) q) p⟩
  · have hcoll' : (c'.face name).collection = some coll' := hcoll'
    rw [h] at hcoll'
    rw [Option.some.inj (hcoll'.symm.trans hcoll)]
  · rw [router_face h]
    exact ⟨fun hr => ⟨hc key, hr⟩, And.right⟩
  · rw [htransfers]
  · rw [htransfers]
    exact ⟨fun ht => ⟨ht, fun hcut => hcut.elim (ho _ _) (ho _ _)⟩, And.left⟩
  · obtain hown | ⟨t, -, -, hown, -⟩ := hgone
    · exact absurd hown (ho q p)
    · exact absurd hown (ho _ _)

theorem face_of_get?_none (hs : c.Sound) (hn : c.collections.get? name = none) :
    c.operation? name = none ∧ (∀ key r, c.router name key ≠ .ok r) ∧ c.transfers name = [] ∧
      ∀ q p, c.replicas.look name q p = none := by
  have hface := hs.face_none hn
  refine ⟨congrArg Face.operation hface, fun key r hr => ?_, ?_, fun q p => ?_⟩
  · obtain ⟨coll, hc, -⟩ := router_eq_ok.1 hr
    cases hc.symm.trans hn
  · rw [transfers_face, hface]
    rfl
  · exact congrFun (congrFun (congrArg Face.look hface) q) p

/-- Nothing is left of a collection. -/
theorem ClearedAt.of_none (hs : c'.Sound) (hn : c'.collections.get? name = none)
    (ho : c.operation? name = none) (hc : ∀ key, event.Covers name key)
    (hown : ∀ q p, c.Owns event name q p) : ClearedAt c event c' name := by
  obtain ⟨ho', hr', ht', hl'⟩ := face_of_get?_none hs hn
  refine ⟨fun coll coll' _ hcoll' => ?_, ho'.trans ho.symm, fun key r => ?_, ?_, fun t => ?_,
    fun q p _ => hl' q p, fun q p hnot => absurd (hown q p) hnot⟩
  · cases hcoll'.symm.trans hn
  · exact ⟨fun hr => absurd hr (hr' key r), fun h => absurd (hc key) h.1⟩
  · rw [ht']
    exact List.nil_sublist _
  · rw [ht']
    exact ⟨nofun, fun h => absurd (.inl (hown _ _)) h.2⟩

theorem cleared_collection (hs : c'.Sound) (ho : c.operation? name = none)
    (hc' : c' = { c with
      replicas := (c.replicas.removeCollection name).1
      collections := c.collections.erase name }) : Cleared c (.collectionDeleted name) c' := by
  obtain ⟨hhome, -, htable, -⟩ := ReplicaTable.removeCollection_spec c.replicas name
  have hget : ∀ n, c'.collections.get? n = if n = name then none else c.collections.get? n := fun n => by
    rw [hc', get?_erase]
  refine ⟨fun p => ?_, by rw [hc'], by rw [hc'], by rw [hc']; exact hhome, fun n => ?_, fun n => ?_⟩
  · rw [hc']
    exact ⟨fun h => ⟨h, nofun⟩, And.left⟩
  · by_cases hn : n = name
    · simp [SortedMap.contains, hget, hn]
    · have hne : TopologyEvent.collectionDeleted name ≠ .collectionDeleted n := fun he =>
        hn (TopologyEvent.collectionDeleted.inj he).symm
      simp [SortedMap.contains, hget, hn, hne]
  · by_cases hn : n = name
    · subst hn
      exact .of_none hs (by simp [hget]) ho (fun _ => rfl) fun _ _ => rfl
    · refine .of_face ?_ (fun _ => hn) fun _ _ => hn
      have hlook : c'.replicas.look n = c.replicas.look n := by
        funext q p
        simp [hc', ReplicaTable.look, htable, hn]
      simp only [face, hget, if_neg hn, hlook, Face.mk.injEq, and_true, true_and]
      rw [hc']

/-- A collection without one of its groups. -/
theorem ClearedAt.of_group {coll : Collection} {r : Router} (hf : (c.face name).Fits)
    (hcoll : c.collections.get? name = some coll) (hr : coll.router (some key) = .ok r)
    (hafter : c'.face name = ⟨some ({ coll with groups := coll.groups.erase (some key) }.take
      (fun t => r.shards.contains t.key.shard || r.shards.contains t.key.toShard)).1,
      c.operations.get? name, (c.replicas.look name).without r.shards⟩) :
    ClearedAt c (.shardKeyDeleted name key) c' name := by
  have hcoll' : c'.collections.get? name = some _ := congrArg Face.collection hafter
  have hlook : c'.replicas.look name = (c.replicas.look name).without r.shards :=
    congrArg Face.look hafter
  have hgroup : c.router name (some key) = .ok r := router_eq_ok.2 ⟨coll, hcoll, hr⟩
  have howns : ∀ q p, c.Owns (.shardKeyDeleted name key) name q p ↔ q ∈ r.shards := by
    intro q p
    constructor
    · intro h
      obtain ⟨-, r', hr', hq⟩ := h
      obtain rfl := Except.ok.inj (hgroup.symm.trans hr')
      exact hq
    · exact fun hq => ⟨rfl, r, hgroup, hq⟩
  refine ⟨fun x x' hx hx' => ?_, congrArg Face.operation hafter, fun k r' => ?_, ?_, fun t => ?_,
    fun q p hgone => ?_, fun q p hown _ => ?_⟩
  · obtain rfl := Option.some.inj (hcoll.symm.trans hx)
    obtain rfl := Option.some.inj (hcoll'.symm.trans hx')
    rfl
  · by_cases hk : k = some key
    · subst hk
      refine ⟨fun hx => ?_, fun h => absurd ⟨rfl, rfl⟩ h.1⟩
      obtain ⟨_, hsame, hget⟩ := router_eq_ok.1 hx
      obtain rfl := Option.some.inj (hcoll'.symm.trans hsame)
      have hnone := (Collection.router_eq_ok.1 hget).2
      simp [Collection.take] at hnone
    · have hsame : c'.router name k = c.router name k := by
        simp only [Cluster.router, Cluster.collection, hcoll', hcoll]
        exact Collection.router_congr rfl (get?_erase_of_ne hk _)
      rw [hsame]
      exact ⟨fun hx => ⟨fun hcover => hk hcover.2, hx⟩, And.right⟩
  · rw [transfers_eq hcoll', transfers_eq hcoll]
    exact List.filter_sublist
  · rw [transfers_eq hcoll', transfers_eq hcoll, Cuts, howns, howns]
    simp [Collection.take]
  · have hq : q ∈ r.shards := by
      obtain hown | ⟨t, ht, hm, hown, hdest⟩ := hgone
      · exact (howns q p).1 hown
      · -- an incomplete copy is of the same shard
        have hshard := (hf.copies ht hm).2.shard
        rw [← (Prod.mk.inj hdest).1]
        exact hshard ▸ (howns _ _).1 hown
    rw [hlook, Layout.without, if_pos hq]
  · rw [hlook, Layout.without, if_neg fun hq => hown ((howns q p).2 hq)]

theorem cleared_key {coll : Collection} {r : Router} {table : ReplicaTable} {removed : List Replica}
    (hf : (c.face name).Fits) (hcoll : c.collections.get? name = some coll)
    (hr : coll.router (some key) = .ok r)
    (hrem : removeShards c.replicas name r.shards = .ok (table, removed))
    (hc' : c' = { c.setCollection name ({ coll with groups := coll.groups.erase (some key) }.take
      (fun t => r.shards.contains t.key.shard || r.shards.contains t.key.toShard)).1 with
        replicas := table }) : Cleared c (.shardKeyDeleted name key) c' := by
  obtain ⟨hdraw, -⟩ := removeShards_redrawn hrem
  have hd : Redone c c' name ({ coll with groups := coll.groups.erase (some key) }.take
      (fun t => r.shards.contains t.key.shard || r.shards.contains t.key.toShard)).1
      (c.operations.get? name) ((c.replicas.look name).without r.shards) := by
    rw [hc']
    exact Redone.edit c.epoch _ hdraw (get?_same rfl)
  refine ⟨fun p => ?_, by rw [hc']; rfl, hd.ringPositions, hd.replicas.home, fun n => ?_, fun n => ?_⟩
  · rw [hd.peers]
    exact ⟨fun h => ⟨h, fun _ he => by cases he⟩, And.left⟩
  · have hknown : c'.collections.contains n = c.collections.contains n := by
      by_cases hn : n = name
      · subst hn
        simp [SortedMap.contains, hd.collection, hcoll]
      · simp [SortedMap.contains, hd.collection, hn]
    rw [hknown]
    exact ⟨fun h => ⟨h, fun he => by cases he⟩, And.left⟩
  · by_cases hn : n = name
    · subst hn
      exact .of_group hf hcoll hr hd.face
    · exact .of_face (hd.face_of_ne hn) (fun _ h => hn h.1) fun _ _ h => hn h.1

/-- A collection without the replicas of a peer, and without its transfers. -/
theorem ClearedAt.of_peer {coll : Collection} {force : Bool}
    (hcoll : c.collections.get? name = some coll)
    (hfree : ∀ t ∈ coll.transfers, t.resharding = true → t.key.involves peer = false)
    (hafter : c'.face name = ⟨some (coll.take (·.key.involves peer)).1, c.operations.get? name,
      (c.replicas.look name).evicted peer coll.transfers⟩) :
    ClearedAt c (.peerRemoved peer force) c' name := by
  have hcoll' : c'.collections.get? name = some _ := congrArg Face.collection hafter
  have hlook : c'.replicas.look name = (c.replicas.look name).evicted peer coll.transfers :=
    congrArg Face.look hafter
  refine ⟨fun x x' hx hx' => ?_, congrArg Face.operation hafter, fun k r => ?_, ?_, fun t => ?_,
    fun q p hgone => ?_, fun q p hown hstrand => ?_⟩
  · obtain rfl := Option.some.inj (hcoll.symm.trans hx)
    obtain rfl := Option.some.inj (hcoll'.symm.trans hx')
    rfl
  · have hsame : c'.router name k = c.router name k := by
      simp only [Cluster.router, Cluster.collection, hcoll, hcoll']
      rfl
    rw [hsame]
    exact ⟨fun h => ⟨id, h⟩, And.right⟩
  · rw [transfers_eq hcoll, transfers_eq hcoll']
    exact List.filter_sublist
  · rw [transfers_eq hcoll, transfers_eq hcoll']
    simp [Collection.take, Cuts, Owns, TransferKey.involves]
  · rw [hlook, Layout.evicted, if_pos]
    obtain hown | ⟨t, ht, -, hown, hdest⟩ := hgone
    · exact .inl hown
    · exact .inr ⟨t, transfers_eq hcoll ▸ ht, hown, hdest⟩
  · rw [hlook, Layout.evicted, if_neg]
    intro h
    obtain hp | ⟨t, ht, hsource, hdest⟩ := h
    · exact hown hp
    · refine hstrand ⟨t, (transfers_eq hcoll).symm ▸ ht, ?_, hsource, hdest⟩
      cases hm : t.resharding with
      | false => rfl
      | true =>
        have hinvolved := hfree t ht hm
        simp [TransferKey.involves, hsource] at hinvolved

theorem cleared_peer {table table' : ReplicaTable} {force : Bool} (hs : c.Sound)
    (hfree : ∀ n, ∀ t ∈ c.transfers n, t.resharding = true → t.key.involves peer = false)
    (hcut : removeReplicas c.replicas
      ((c.dropTransfersOf peer).2.2.map (fun x => (x.1, x.2.toShard, x.2.target))) = .ok table)
    (hcut' : removeReplicas table
      ((table.onPeer peer).map (fun x => (x.1, x.2.shard, peer))) = .ok table') :
    Cleared c (.peerRemoved peer force) (c.evict peer table') := by
  obtain ⟨hhome, -⟩ := removeReplicas_spec hcut
  obtain ⟨hhome', -⟩ := removeReplicas_spec hcut'
  have hs' := evict_sound hcut hs hcut'
  refine ⟨fun p => ?_, rfl, rfl, hhome'.trans hhome, fun n => ?_, fun n => ?_⟩
  · rw [evict, SortedSet.contains_erase]
    constructor
    · exact fun h => ⟨h.2, fun force' he => h.1 (TopologyEvent.peerRemoved.inj he).1.symm⟩
    · exact fun h => ⟨fun hp => h.2 force (hp ▸ rfl), h.1⟩
  · simp [evict_contains]
  · cases hcoll : c.collections.get? n with
    | none =>
      obtain ⟨-, hr, ht, hl⟩ := face_of_get?_none hs hcoll
      obtain ⟨-, hr', ht', hl'⟩ := face_of_get?_none hs' (by rw [evict_get?, hcoll]; rfl)
      refine ⟨fun _ _ hx => ?_, rfl, fun key r => ?_, ?_, ?_, fun q p _ => hl' q p,
        fun q p _ _ => (hl' q p).trans (hl q p).symm⟩
      · cases hcoll.symm.trans hx
      · exact ⟨fun h => absurd h (hr' key r), fun h => absurd h.2 (hr key r)⟩
      · rw [ht, ht']
      · simp [ht, ht']
    | some coll =>
      refine .of_peer hcoll (fun t ht => hfree n t (by rw [transfers_eq hcoll]; exact ht)) ?_
      simp only [face, evict_get?, hcoll, Option.map_some, Face.mk.injEq, true_and]
      exact ⟨rfl, look_evicted hcut hcut' hcoll⟩

end Cluster
end ShardCluster
