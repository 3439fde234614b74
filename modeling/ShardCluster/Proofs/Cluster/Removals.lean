import ShardCluster.Proofs.Cluster.Deletions
/-! Peers, collections and shard keys can be deleted in every state. What goes leaves nothing behind
that refers to it, and takes nothing else along. -/
namespace ShardCluster.Cluster
open SortedMap
variable {c c' : Cluster} {name : String} {e : Effects} {event : TopologyEvent} {peer : PeerId}
  {key : ShardKey} {q : ShardId} {p : PeerId} {t : Transfer}

namespace Yielded
variable {c₁ : Cluster} {n : String} {op : Operation}
  (hy : Yielded c event e c₁) (ho : c.operation? n = some op) (hh : c.Hits event op)
include hy ho hh

theorem transfers_nil : c₁.transfers n = [] := by
  obtain ⟨coll, r, -, -, hface⟩ := hy.undone n op ho hh
  rw [transfers_face, hface]
  rfl

theorem router : ∃ r, c.router n op.key = .ok r ∧ c₁.router n op.key = .ok r.abort ∧
    ∀ key, key ≠ op.key → c₁.router n key = c.router n key := by
  obtain ⟨coll, r, hcoll, hr, hface⟩ := hy.undone n op ho hh
  have hcoll₁ : c₁.collections.get? n =
      some (({ coll with transfers := [] } : Collection).setRouter op.key r.abort) :=
    congrArg Face.collection hface
  have hr' : ({ coll with transfers := [] } : Collection).router op.key = .ok r := hr
  refine ⟨r, router_eq_ok.2 ⟨coll, hcoll, hr⟩, router_eq_ok.2 ⟨_, hcoll₁, ?_⟩, fun key hk => ?_⟩
  · exact Face.Agrees.router_setRouter hr' r.abort
  · simp only [Cluster.router, Cluster.collection, hcoll, hcoll₁]
    exact Collection.router_congr rfl (get?_insert_of_ne hk _ _)

theorem look : c₁.replicas.look n = (c.replicas.look n).undone op.direction := by
  obtain ⟨coll, r, -, -, hface⟩ := hy.undone n op ho hh
  exact congrArg Face.look hface

/-- A rollback gives no group more shards. -/
theorem owns (h : c₁.Owns event n q p) : c.Owns event n q p := by
  cases event with
  | collectionDeleted name => exact h
  | peerRemoved peer force => exact h
  | shardKeyDeleted name key =>
    obtain ⟨rfl, r₁, hr₁, hq⟩ := h
    obtain ⟨r, hr, habort, -⟩ := hy.router ho hh
    rw [hh.2] at hr habort
    obtain rfl := Except.ok.inj (habort.symm.trans hr₁)
    exact ⟨rfl, r, hr, Router.mem_shards.2 (.inl ((Router.Idle.abort r).mem_shards.1 hq))⟩

/-- A shard that a rollback takes out of its group has no replica left. -/
theorem look_none (hf : (c.face n).Fits) (h : c.Owns event n q p) (hnot : ¬c₁.Owns event n q p) :
    c₁.replicas.look n q p = none := by
  cases event with
  | collectionDeleted name => exact absurd h hnot
  | peerRemoved peer force => exact absurd h hnot
  | shardKeyDeleted name key =>
    obtain ⟨rfl, r, hr, hq⟩ := h
    obtain ⟨r', hr', habort, -⟩ := hy.router ho hh
    rw [hh.2] at hr' habort
    obtain rfl := Except.ok.inj (hr.symm.trans hr')
    have hout : r.old.ring.contains q ≠ true := fun hin =>
      hnot ⟨rfl, r.abort, habort, (Router.Idle.abort r).mem_shards.2 hin⟩
    obtain ⟨coll, hcoll, hget⟩ := router_eq_ok.1 hr
    have ho : c.operations.get? n = some op := ho
    rw [face, hcoll, ho] at hf
    obtain ⟨x, hx, -, hfollows, hfill, -⟩ := hf.live
    rw [hh.2] at hx
    obtain rfl := Except.ok.inj (hget.symm.trans hx)
    have hup : op.direction = .up := by
      cases hd : op.direction with
      | up => rfl
      | down => exact absurd ((hfollows.mem_shards_down hd).1 hq) hout
    have hshard := ((hfollows.mem_shards_up hup).1 hq).resolve_right hout
    rw [hy.look ho hh, ← hfill.without hup, Layout.without, if_pos (List.mem_singleton.2 hshard)]

end Yielded

/-- An operation that an event does not hit has no transfer from or to what goes. -/
theorem not_cuts_of_live (hc : Reached Planned c) {n : String} {op : Operation}
    (ho : c.operation? n = some op) (hh : ¬c.Hits event op) : ∀ t ∈ c.transfers n, ¬c.Cuts event n t := by
  intro t ht hcut
  have hname : op.collection = n := (hc.sound.named n op ho).1
  have hin : t ∈ (c.face n).transfers := transfers_face c n ▸ ht
  have hslice : t.resharding = true := by
    by_contra hm
    cases ho.symm.trans ((hc.fits n).copies hin (by simpa using hm)).1
  cases event with
  | collectionDeleted name => exact hh (hname.trans (hcut.elim id id))
  | peerRemoved peer force =>
    refine hh (.inr (.inr ⟨t, hname.symm ▸ ht, hslice, ?_⟩))
    simpa [TransferKey.involves, Cuts, Owns] using hcut
  | shardKeyDeleted name key =>
    obtain ⟨-, -, k, r, hg, hq, hq', hlive⟩ := (hc.fits n).transfer hin
    obtain ⟨op', ho', rfl⟩ := hlive hslice
    obtain rfl := Option.some.inj (ho.symm.trans ho')
    obtain ⟨coll, hcoll, hr⟩ := hg
    have hkey : ∀ q p, q ∈ r.shards → c.Owns (.shardKeyDeleted name key) n q p → False := by
      intro q p hq hown
      obtain ⟨rfl, r', hr', hq''⟩ := hown
      obtain ⟨_, hsame, hr'⟩ := router_eq_ok.1 hr'
      obtain rfl := Option.some.inj (hcoll.symm.trans hsame)
      exact hh ⟨hname, ((hc.fits n).fit coll hcoll).parted.apart hr (Collection.router_eq_ok.1 hr').2 hq hq''⟩
    exact hcut.elim (hkey _ _ hq) (hkey _ _ hq')

/-- What an accepted deletion has done: what goes is gone, the operations that it hits are given up,
and all else is as it was. -/
structure Removed (c : Cluster) (event : TopologyEvent) (e : Effects) (c' : Cluster) : Prop where
  peers : ∀ p, c'.peers.contains p = true ↔
    c.peers.contains p = true ∧ ∀ force, event ≠ .peerRemoved p force
  collections : ∀ n, c'.collections.contains n = true ↔
    c.collections.contains n = true ∧ event ≠ .collectionDeleted n
  config : ∀ n coll coll', c.collections.get? n = some coll → c'.collections.get? n = some coll' →
    coll'.config = coll.config
  epoch : c'.epoch = c.epoch
  ringPositions : c'.ringPositions = c.ringPositions
  home : c'.replicas.home = c.replicas.home
  once : e.aborted.Nodup
  aborted : ∀ a, a ∈ e.aborted ↔ a.forced = true ∧
    a.reason = (Error.topologyConflict event.describe).message ∧
    ∃ n, c.operation? n = some a.operation ∧ c.Hits event a.operation
  operations : ∀ n op, c'.operation? n = some op ↔ c.operation? n = some op ∧ ¬c.Hits event op
  ordered : ∀ n, (c'.transfers n).Sublist (c.transfers n)
  transfers : ∀ n t, t ∈ c'.transfers n ↔ t ∈ c.transfers n ∧ ¬c.Cuts event n t ∧
    ∀ op, c.operation? n = some op → ¬c.Hits event op
  carried : ∀ n op, c.operation? n = some op → ¬c.Hits event op → c'.transfers n = c.transfers n ∧
    ∃ r, c.router n op.key = .ok r ∧ c'.router n op.key = .ok r
  unrouted : ∀ n key r, event.Covers n key → c'.router n key ≠ .ok r
  rerouted : ∀ n op, c.operation? n = some op → c.Hits event op → ¬event.Covers n op.key →
    ∃ r, c.router n op.key = .ok r ∧ c'.router n op.key = .ok r.abort
  routed : ∀ n key, ¬event.Covers n key →
    (∀ op, c.operation? n = some op → op.key = key → ¬c.Hits event op) →
    ∀ r, c'.router n key = .ok r ↔ c.router n key = .ok r
  gone : ∀ n q p, c.Owns event n q p ∨ c.Strands event n q p → c'.replicas.contains n q p = false
  undone : ∀ n op, c.operation? n = some op → c.Hits event op → ∀ q p, ¬c.Owns event n q p →
    c.replicas.state n q p = .ok .resharding →
    (op.direction = .up → c'.replicas.contains n q p = false) ∧
    (op.direction = .down → c'.replicas.state n q p = .ok .active)
  kept : ∀ n q p, ¬c.Owns event n q p → ¬c.Strands event n q p →
    (c.replicas.state n q p = .ok .resharding →
      ∀ op, c.operation? n = some op → ¬c.Hits event op) →
    ∀ s, c'.replicas.state n q p = .ok s ↔ c.replicas.state n q p = .ok s

theorem owns_face {c₁ : Cluster} {n : String} (h : c₁.face n = c.face n) :
    c₁.Owns event n q p ↔ c.Owns event n q p := by
  cases event with
  | collectionDeleted name => exact Iff.rfl
  | peerRemoved peer force => exact Iff.rfl
  | shardKeyDeleted name key =>
    by_cases hn : n = name
    · subst hn
      simp only [Owns, router_face h]
    · simp [Owns, hn]

theorem strands_face {c₁ : Cluster} {n : String} (h : c₁.face n = c.face n) :
    c₁.Strands event n q p ↔ c.Strands event n q p := by
  simp only [Strands, owns_face h, transfers_face, h]

/-- While an operation is live no copy of a whole shard is made, so none can be left incomplete. -/
theorem not_strands_of_live (hc : Reached Planned c) {n : String} {op : Operation}
    (ho : c.operation? n = some op) : ¬c.Strands event n q p := by
  intro h
  obtain ⟨t, ht, hm, -⟩ := h
  rw [transfers_face] at ht
  cases ho.symm.trans ((hc.fits n).copies ht hm).1

section
variable {c₁ : Cluster} {e₁ : Effects} {n : String} {op : Operation}
  (hy : Yielded c event e₁ c₁) (hcl : Cleared c₁ event c')
include hy

theorem Yielded.cases (n : String) : (∃ op, c.operation? n = some op ∧ c.Hits event op) ∨
    (∀ op, c.operation? n = some op → ¬c.Hits event op) ∧ c₁.face n = c.face n := by
  by_cases hhit : ∃ op, c.operation? n = some op ∧ c.Hits event op
  · exact .inl hhit
  · have hnot : ∀ op, c.operation? n = some op → ¬c.Hits event op := fun op ho hh => hhit ⟨op, ho, hh⟩
    exact .inr ⟨hnot, hy.spared n hnot⟩

theorem Yielded.not_strands (ho : c.operation? n = some op) (hh : c.Hits event op) :
    ¬c₁.Strands event n q p := by
  intro h
  obtain ⟨t, ht, -⟩ := h
  rw [hy.transfers_nil ho hh] at ht
  cases ht

include hcl

theorem removed_collections : c'.collections.contains n = true ↔
    c.collections.contains n = true ∧ event ≠ .collectionDeleted n := by
  rw [hcl.collections]
  obtain ⟨op, ho, hh⟩ | ⟨-, hface⟩ := hy.cases n
  · obtain ⟨coll, r, hcoll, -, hface⟩ := hy.undone n op ho hh
    have hcoll₁ : c₁.collections.get? n = _ := congrArg Face.collection hface
    simp [SortedMap.contains, hcoll, hcoll₁]
  · have hsame : c₁.collections.get? n = c.collections.get? n := congrArg Face.collection hface
    simp [SortedMap.contains, hsame]

theorem removed_config {coll coll' : Collection} (hx : c.collections.get? n = some coll)
    (hx' : c'.collections.get? n = some coll') : coll'.config = coll.config := by
  obtain ⟨op, ho, hh⟩ | ⟨-, hface⟩ := hy.cases n
  · obtain ⟨x, r, hcoll, -, hface⟩ := hy.undone n op ho hh
    obtain rfl := Option.some.inj (hcoll.symm.trans hx)
    have hcoll₁ : c₁.collections.get? n =
        some (({ x with transfers := [] } : Collection).setRouter op.key r.abort) :=
      congrArg Face.collection hface
    have hconfig := (hcl.each n).config _ coll' hcoll₁ hx'
    exact hconfig
  · exact (hcl.each n).config coll coll' ((congrArg Face.collection hface).trans hx) hx'

theorem removed_operation : c'.operation? n = some op ↔ c.operation? n = some op ∧ ¬c.Hits event op := by
  rw [(hcl.each n).operation]
  obtain ⟨op', ho, hh⟩ | ⟨hnot, hface⟩ := hy.cases n
  · obtain ⟨_, _, -, -, hface⟩ := hy.undone n op' ho hh
    have hidle : c₁.operation? n = none := congrArg Face.operation hface
    rw [hidle]
    refine ⟨nofun, fun h => ?_⟩
    obtain rfl := Option.some.inj (ho.symm.trans h.1)
    exact absurd hh h.2
  · have hsame : c₁.operation? n = c.operation? n := congrArg Face.operation hface
    rw [hsame]
    exact ⟨fun h => ⟨h, hnot op h⟩, And.left⟩

theorem removed_ordered : (c'.transfers n).Sublist (c.transfers n) := by
  obtain ⟨op, ho, hh⟩ | ⟨-, hface⟩ := hy.cases n
  · have hnil := List.eq_nil_of_sublist_nil (hy.transfers_nil ho hh ▸ (hcl.each n).ordered)
    rw [hnil]
    exact List.nil_sublist _
  · have hsame : c₁.transfers n = c.transfers n := by rw [transfers_face, transfers_face, hface]
    exact hsame ▸ (hcl.each n).ordered

theorem removed_transfers : t ∈ c'.transfers n ↔ t ∈ c.transfers n ∧ ¬c.Cuts event n t ∧
    ∀ op, c.operation? n = some op → ¬c.Hits event op := by
  rw [(hcl.each n).transfers]
  obtain ⟨op, ho, hh⟩ | ⟨hnot, hface⟩ := hy.cases n
  · rw [hy.transfers_nil ho hh]
    exact ⟨fun h => (nomatch h.1), fun h => absurd hh (h.2.2 op ho)⟩
  · have hsame : c₁.transfers n = c.transfers n := by rw [transfers_face, transfers_face, hface]
    rw [hsame, Cuts, Cuts, owns_face hface, owns_face hface]
    exact ⟨fun h => ⟨h.1, h.2, hnot⟩, fun h => ⟨h.1, h.2.1⟩⟩

theorem removed_router {k : Option ShardKey} (hcov : ¬event.Covers n k)
    (hhit : ∀ op, c.operation? n = some op → op.key = k → ¬c.Hits event op) {r : Router} :
    c'.router n k = .ok r ↔ c.router n k = .ok r := by
  rw [(hcl.each n).routers]
  have hsame : c₁.router n k = c.router n k := by
    obtain ⟨op, ho, hh⟩ | ⟨-, hface⟩ := hy.cases n
    · obtain ⟨_, -, -, hother⟩ := hy.router ho hh
      exact hother k fun hk => hhit op ho hk.symm hh
    · exact router_face hface k
  rw [hsame]
  exact ⟨And.right, fun h => ⟨hcov, h⟩⟩

theorem removed_aborted (ho : c.operation? n = some op) (hh : c.Hits event op)
    (hcov : ¬event.Covers n op.key) :
    ∃ r, c.router n op.key = .ok r ∧ c'.router n op.key = .ok r.abort := by
  obtain ⟨r, hr, habort, -⟩ := hy.router ho hh
  exact ⟨r, hr, ((hcl.each n).routers _ _).2 ⟨hcov, habort⟩⟩

variable (hc : Reached Planned c)
include hc

/-- An operation that the event does not hit goes on as if nothing had been. -/
theorem removed_carried (ho : c.operation? n = some op) (hh : ¬c.Hits event op) :
    c'.transfers n = c.transfers n ∧ ∃ r, c.router n op.key = .ok r ∧ c'.router n op.key = .ok r := by
  have hnot : ∀ op', c.operation? n = some op' → ¬c.Hits event op' := fun op' ho' =>
    Option.some.inj (ho.symm.trans ho') ▸ hh
  constructor
  · have hsub : (c'.transfers n).Sublist (c.transfers n) := removed_ordered hy hcl
    have hkeys := (hc.fits n).keys
    rw [← transfers_face] at hkeys
    have hsame : ∀ t, t ∈ c'.transfers n ↔ t ∈ c.transfers n := fun t =>
      ⟨fun ht => hsub.subset ht,
        fun ht => (removed_transfers hy hcl).2 ⟨ht, not_cuts_of_live hc ho hh t ht, hnot⟩⟩
    have hperm := (List.perm_ext_iff_of_nodup (hkeys.of_map.sublist hsub) hkeys.of_map).2 hsame
    exact hsub.eq_of_length hperm.length_eq
  · obtain ⟨coll, r, hcoll, hr, -⟩ := (hc.fits n).agrees.live op ho
    have hrouter : c.router n op.key = .ok r := router_eq_ok.2 ⟨coll, hcoll, hr⟩
    refine ⟨r, hrouter, (removed_router hy hcl (fun hcov => hh ?_) fun op' ho' _ => hnot op' ho').2 hrouter⟩
    have hname : op.collection = n := (hc.sound.named n op ho).1
    cases event with
    | collectionDeleted name => exact hname.trans hcov
    | shardKeyDeleted name key => exact ⟨hname.trans hcov.1, hcov.2⟩
    | peerRemoved peer force => exact hcov.elim

theorem removed_gone (hgone : c.Owns event n q p ∨ c.Strands event n q p) :
    c'.replicas.look n q p = none := by
  obtain ⟨op, ho, hh⟩ | ⟨-, hface⟩ := hy.cases n
  · obtain hown | hstrand := hgone
    · by_cases hown₁ : c₁.Owns event n q p
      · exact (hcl.each n).gone q p (.inl hown₁)
      · rw [(hcl.each n).kept q p hown₁ (hy.not_strands ho hh)]
        exact hy.look_none ho hh (hc.fits n) hown hown₁
    · exact absurd hstrand (not_strands_of_live hc ho)
  · exact (hcl.each n).gone q p (hgone.imp (owns_face hface).2 (strands_face hface).2)

omit hc in
/-- Where an operation is hit, the replicas that do not go are rolled back. -/
theorem removed_look (ho : c.operation? n = some op) (hh : c.Hits event op)
    (hown : ¬c.Owns event n q p) :
    c'.replicas.look n q p = (c.replicas.look n).undone op.direction q p := by
  rw [(hcl.each n).kept q p (fun h => hown (hy.owns ho hh h)) (hy.not_strands ho hh), hy.look ho hh]

omit hc in
theorem removed_kept (hown : ¬c.Owns event n q p) (hstrand : ¬c.Strands event n q p)
    (hres : c.replicas.look n q p = some .resharding →
      ∀ op, c.operation? n = some op → ¬c.Hits event op) :
    c'.replicas.look n q p = c.replicas.look n q p := by
  obtain ⟨op, ho, hh⟩ | ⟨-, hface⟩ := hy.cases n
  · rw [removed_look hy hcl ho hh hown]
    exact Layout.undone_of_ne (fun h => hres h op ho hh) _
  · rw [(hcl.each n).kept q p (fun h => hown ((owns_face hface).1 h))
      (fun h => hstrand ((strands_face hface).1 h))]
    exact congrFun (congrFun (congrArg Face.look hface) q) p

end

/-- First the operations are given up, then the rest goes. -/
theorem Yielded.removed {c₁ : Cluster} {e₁ : Effects} (hc : Reached Planned c)
    (hy : Yielded c event e₁ c₁) (hcl : Cleared c₁ event c') (he : e.aborted = e₁.aborted) :
    Removed c event e c' where
  peers p := by rw [hcl.peers, hy.peers]
  collections n := removed_collections hy hcl
  config n coll coll' hx hx' := removed_config hy hcl hx hx'
  epoch := hcl.epoch.trans hy.epoch
  ringPositions := hcl.ringPositions.trans hy.ringPositions
  home := hcl.home.trans hy.home
  once := he ▸ hy.once
  aborted a := he ▸ hy.aborted a
  operations n op := removed_operation hy hcl
  ordered n := removed_ordered hy hcl
  transfers n t := removed_transfers hy hcl
  carried n op ho hh := removed_carried hy hcl hc ho hh
  unrouted n key r hcov hr := (((hcl.each n).routers key r).1 hr).1 hcov
  rerouted n op ho hh hcov := removed_aborted hy hcl ho hh hcov
  routed n key hcov hhit r := removed_router hy hcl hcov hhit
  gone n q p hgone := by
    rw [ReplicaTable.contains_eq, removed_gone hy hcl hc hgone]
    rfl
  undone n op ho hh q p hown hs := by
    have hs := ReplicaTable.state_eq_ok.1 hs
    have hafter := removed_look hy hcl ho hh hown
    refine ⟨fun hd => ?_, fun hd => ?_⟩
    · rw [ReplicaTable.contains_eq, hafter, hd, Layout.undone_up hs]
      rfl
    · exact ReplicaTable.state_eq_ok.2 (hafter.trans (hd ▸ Layout.undone_down hs))
  kept n q p hown hstrand hres s := by
    rw [ReplicaTable.state_eq_ok, ReplicaTable.state_eq_ok, removed_kept hy hcl hown hstrand fun h =>
      hres (ReplicaTable.state_eq_ok.2 h)]

theorem aborted_append (e e' : Effects) : (e ++ e').aborted = e.aborted ++ e'.aborted := rfl

theorem deleteCollection_removed (hc : Reached Planned c) (h : c.deleteCollection name = .ok (c', e)) :
    Removed c (.collectionDeleted name) e c' := by
  have hs' := (deleteCollection_step hc.sound h).1.sound
  obtain ⟨coll, c₁, e₁, hcoll, habort, hc', rfl⟩ := deleteCollection_eq_ok.1 h
  have hy := forceAborts_yielded hc habort
  obtain ⟨-, -, hidle⟩ := forceAborts_deleted hc.sound habort
  refine hy.removed hc (cleared_collection hs' hidle hc') ?_
  simp only [aborted_append]
  exact (List.append_nil _).trans ((List.append_nil _).trans (List.append_nil _))

theorem deleteCollection_ok (hc : Reached Planned c) (hk : c.collections.contains name = true) :
    ∃ c' e, c.deleteCollection name = .ok (c', e) := by
  obtain ⟨coll, hcoll⟩ := contains_iff.1 hk
  obtain ⟨c₁, e₁, habort⟩ := forceAborts_ok hc (.collectionDeleted name)
  exact ⟨_, _, deleteCollection_eq_ok.2 ⟨coll, c₁, e₁, hcoll, habort, rfl, rfl⟩⟩

/-- A group with a key is found in a custom-sharded collection. -/
theorem router_custom {coll : Collection} (hcoll : c.collections.get? name = some coll)
    (hm : coll.config.method = .custom) (hk : coll.groups.contains (some key) = true) :
    ∃ r, c.router name (some key) = .ok r := by
  obtain ⟨r, hr⟩ := contains_iff.1 hk
  exact ⟨r, router_eq_ok.2 ⟨coll, hcoll, Collection.router_eq_ok.2 ⟨by simp [Collection.checkKey, hm], hr⟩⟩⟩

/-- Rollbacks leave every group in place. -/
theorem Yielded.routed {c₁ : Cluster} (hy : Yielded c event e c₁) {k : Option ShardKey} {r : Router}
    (hr : c.router name k = .ok r) : ∃ r', c₁.router name k = .ok r' := by
  obtain ⟨op, ho, hh⟩ | ⟨-, hface⟩ := hy.cases name
  · obtain ⟨r', -, habort, hother⟩ := hy.router ho hh
    by_cases hk : k = op.key
    · exact ⟨_, hk ▸ habort⟩
    · exact ⟨r, (hother k hk).trans hr⟩
  · exact ⟨r, (router_face hface k).trans hr⟩

theorem deleteShardKey_removed (hc : Reached Planned c) (h : c.deleteShardKey name key = .ok (c', e)) :
    Removed c (.shardKeyDeleted name key) e c' := by
  obtain ⟨coll, c₁, e₁, coll₁, table, removed, hcoll, hm, hknown, habort, hcoll₁, hrem, hc', rfl⟩ :=
    deleteShardKey_eq_ok.1 h
  have hy := forceAborts_yielded hc habort
  obtain ⟨r₀, hr₀⟩ := router_custom hcoll hm hknown
  obtain ⟨r, hr⟩ := hy.routed hr₀
  obtain ⟨_, hsame, hr⟩ := router_eq_ok.1 hr
  obtain rfl := Option.some.inj (hcoll₁.symm.trans hsame)
  rw [shardsUnder_of_router hr] at hrem hc' ⊢
  refine hy.removed hc (cleared_key (hy.fits name) hcoll₁ hr hrem hc') ?_
  simp only [aborted_append]
  exact (List.append_nil _).trans ((List.append_nil _).trans (List.append_nil _))

theorem deleteShardKey_ok (hc : Reached Planned c) {coll : Collection}
    (hcoll : c.collections.get? name = some coll) (hk : coll.groups.contains (some key) = true) :
    ∃ c' e, c.deleteShardKey name key = .ok (c', e) := by
  have hm : coll.config.method = .custom := by
    cases hm : coll.config.method with
    | custom => rfl
    | auto => cases ((hc.keyed name).auto coll hcoll hm (some key)).1 hk
  obtain ⟨c₁, e₁, habort⟩ := forceAborts_ok hc (.shardKeyDeleted name key)
  have hy := forceAborts_yielded hc habort
  obtain ⟨r₀, hr₀⟩ := router_custom hcoll hm hk
  obtain ⟨r, hr⟩ := hy.routed hr₀
  obtain ⟨coll₁, hcoll₁, hr⟩ := router_eq_ok.1 hr
  have hlisted : c₁.replicas.collections.contains name = true := by
    rw [hy.sound.registered]
    exact contains_iff.2 ⟨coll₁, hcoll₁⟩
  obtain ⟨table, removed, hrem⟩ := removeShards_ok hlisted r.shards
  rw [← shardsUnder_of_router hr] at hrem
  exact ⟨_, _, deleteShardKey_eq_ok.2
    ⟨coll, c₁, e₁, coll₁, table, removed, hcoll, hm, hk, habort, hcoll₁, hrem, rfl, rfl⟩⟩

/-- Once no operation needs a peer, only whole shards are copied from or to it. -/
theorem whole_of_involves {force : Bool} {c₁ : Cluster} (hc : Reached Planned c)
    (h : c.forceAborts (.peerRemoved peer force) = .ok (c₁, e)) {n : String} {t : Transfer}
    (ht : t ∈ c₁.transfers n) (hp : t.key.involves peer = true) : t.resharding = false := by
  have hy := forceAborts_yielded hc h
  obtain ⟨-, -, hfree⟩ := forceAborts_peerRemoved hc.sound h
  cases hm : t.resharding with
  | false => rfl
  | true =>
    rw [transfers_face] at ht
    obtain ⟨o, ho⟩ := (hy.fits n).live_of_slice ht hm
    have ho : c₁.operations.get? n = some o := ho
    obtain ⟨coll, -, hcoll, -⟩ := (hy.fits n).agrees.live o ho
    have hcoll : c₁.collections.get? n = some coll := hcoll
    rw [← transfers_face, transfers_eq hcoll] at ht
    rw [(hfree n coll o hcoll ho).2.2 t ht hm] at hp
    cases hp

theorem removePeer_removed (hc : Reached Planned c) {force : Bool}
    (h : c.removePeer peer force = .ok (c', e)) : Removed c (.peerRemoved peer force) e c' := by
  obtain ⟨-, -, c₁, e₁, table, table', habort, hcut, hcut', rfl, rfl⟩ := removePeer_eq_ok.1 h
  have hy := forceAborts_yielded hc habort
  have hfree : ∀ n, ∀ t ∈ c₁.transfers n, t.resharding = true → t.key.involves peer = false := by
    intro n t ht hm
    by_contra hp
    rw [whole_of_involves hc habort ht (by simpa using hp)] at hm
    cases hm
  refine hy.removed hc (cleared_peer hy.sound hfree hcut hcut') ?_
  rw [aborted_append]
  exact List.append_nil _

/-- The copies that a leaving peer was making elsewhere are there, each of them once. -/
theorem stranded_spec {force : Bool} {c₁ : Cluster} (hc : Reached Planned c)
    (h : c.forceAborts (.peerRemoved peer force) = .ok (c₁, e)) :
    ((c₁.dropTransfersOf peer).2.2.map (fun x => (x.1, x.2.toShard, x.2.target))).Nodup ∧
    ∀ x ∈ (c₁.dropTransfersOf peer).2.2.map (fun x => (x.1, x.2.toShard, x.2.target)),
      (c₁.replicas.look x.1 x.2.1 x.2.2).isSome := by
  have hy := forceAborts_yielded hc h
  have hcopies : ∀ n coll t, c₁.collections.get? n = some coll → t ∈ coll.transfers →
      t.key.involves peer = true → Fit coll none (c₁.replicas.look n) ∧ t.Copies (c₁.replicas.look n) := by
    intro n coll t hcoll ht hp
    have hin : t ∈ c₁.transfers n := by rw [transfers_eq hcoll]; exact ht
    have hwhole := whole_of_involves hc h hin hp
    rw [transfers_face] at hin
    obtain ⟨hop, hcopy⟩ := (hy.fits n).copies hin hwhole
    exact ⟨hop ▸ (hy.fits n).fit coll hcoll, hcopy⟩
  constructor
  · refine List.pairwise_map.2 (List.Pairwise.filter _ ?_)
    refine SortedMap.pairwise_flatMap (fun x hx => ?_) (·.1) (fun x hx y hy => ?_)
      fun a b hne hab => hne (Prod.mk.inj hab).1
    · obtain ⟨n, coll⟩ := x
      have hcoll := mem_entries.1 hx
      have hkeys : (coll.transfers.map (·.key)).Nodup := ((hy.fits n).fit coll hcoll).keys
      refine List.pairwise_map.2 (((List.pairwise_map.1 hkeys).filter _).imp_of_mem ?_)
      intro a b ha hb hne hab
      obtain ⟨ha, hpa⟩ := List.mem_filter.1 ha
      obtain ⟨hb, -⟩ := List.mem_filter.1 hb
      exact (hcopies n coll a hcoll ha hpa).1.destination_ne hb ha hne (Prod.mk.inj hab).2
    · obtain ⟨t, -, rfl⟩ := List.mem_map.1 hy
      rfl
  · intro x hx
    obtain ⟨⟨n, key⟩, hin, rfl⟩ := List.mem_map.1 hx
    obtain ⟨coll, hcoll, t, ht, hsource, -, rfl⟩ := mem_stranded.1 hin
    simp [(hcopies n coll t hcoll ht (by simp [TransferKey.involves, hsource])).2.target]

theorem removePeer_ok (hc : Reached Planned c) (hp : c.peers.contains peer = true) :
    ∃ c' e, c.removePeer peer true = .ok (c', e) := by
  obtain ⟨c₁, e₁, habort⟩ := forceAborts_ok hc (.peerRemoved peer true)
  obtain ⟨hnodup, hhere⟩ := stranded_spec hc habort
  obtain ⟨table, hcut⟩ := removeReplicas_ok hnodup hhere
  obtain ⟨table', hcut'⟩ := removeReplicas_ok (table.onPeer_nodup peer) (t := table) fun x hx => by
    obtain ⟨⟨n, r⟩, hin, rfl⟩ := List.mem_map.1 hx
    obtain ⟨rfl, hl⟩ := ReplicaTable.mem_onPeer.1 hin
    simp [hl]
  exact ⟨_, _, removePeer_eq_ok.2
    ⟨hp, nofun, c₁, e₁, table, table', habort, hcut, hcut', rfl, rfl⟩⟩

/-- In every state a known peer can be removed by force, and a collection or a shard key deleted; it
goes without a trace, and nothing else does. -/
theorem deletions_removed (h : Reached Planned c) :
    (∀ peer, c.peers.contains peer = true → ∃ c' e,
      c.apply (.removePeer peer true) = .ok (c', e) ∧ Removed c (.peerRemoved peer true) e c') ∧
    (∀ name, c.collections.contains name = true → ∃ c' e,
      c.apply (.deleteCollection name) = .ok (c', e) ∧ Removed c (.collectionDeleted name) e c') ∧
    ∀ name coll key, c.collections.get? name = some coll → coll.groups.contains (some key) = true →
      ∃ c' e, c.apply (.deleteShardKey name key) = .ok (c', e) ∧
        Removed c (.shardKeyDeleted name key) e c' := by
  refine ⟨fun peer hp => ?_, fun name hk => ?_, fun name coll key hcoll hk => ?_⟩
  · obtain ⟨c', e, hx⟩ := removePeer_ok h hp
    exact ⟨c', e, hx, removePeer_removed h hx⟩
  · obtain ⟨c', e, hx⟩ := deleteCollection_ok h hk
    exact ⟨c', e, hx, deleteCollection_removed h hx⟩
  · obtain ⟨c', e, hx⟩ := deleteShardKey_ok h hcoll hk
    exact ⟨c', e, hx, deleteShardKey_removed h hx⟩

/-- One peer is given a new shard of one collection and is being copied from in another; a third
collection has a group with a key. -/
def leaned : Except Error Cluster := do
  let c ← replay 1 1 [.addPeer 1, .addPeer 2, .addPeer 3,
    .createCollection "points" {} (.ofList [(0, [1])]),
    .createCollection "notes" {} (.ofList [(0, [2])]),
    .startTransfer "notes" { key := ⟨0, 0, 2, 3⟩, method := .wholeShard },
    .createCollection "tags" { method := .custom } .empty,
    .createShardKey "tags" (.number 1) (.ofList [(0, [3])])]
  let plan ← c.plan "points" { direction := .up, peer := some 2 } .last .epoch
  c.applyAll [.startResharding plan]

theorem deletions_removed_leaned : ∃ c, leaned = .ok c ∧
    (∃ c' e, c.apply (.removePeer 2 true) = .ok (c', e) ∧ Removed c (.peerRemoved 2 true) e c' ∧
      e.aborted.map (·.operation.collection) = ["points"] ∧
      c'.replicas.contains "notes" 0 3 = false ∧ c'.replicas.contains "points" 0 1 = true) ∧
    (∃ c' e, c.apply (.deleteCollection "points") = .ok (c', e) ∧
      Removed c (.collectionDeleted "points") e c') ∧
    ∃ c' e, c.apply (.deleteShardKey "tags" (.number 1)) = .ok (c', e) ∧
      Removed c (.shardKeyDeleted "tags" (.number 1)) e c' := by
  have hrun : leaned.toOption.map (fun c => (c.peers.contains 2 && c.collections.contains "points" &&
        (c.collections.get? "tags").any (·.groups.contains (some (.number 1))),
      (c.apply (.removePeer 2 true)).toOption.map (fun x => (x.2.aborted.map (·.operation.collection),
        x.1.replicas.contains "notes" 0 3, x.1.replicas.contains "points" 0 1)))) =
      some (true, some (["points"], false, true)) := by decide +kernel
  cases h : leaned with
  | error err =>
    rw [h] at hrun
    cases hrun
  | ok c =>
    rw [h] at hrun
    obtain ⟨hknown, hafter⟩ := Prod.mk.inj (Option.some.inj hrun)
    simp only [Bool.and_eq_true, Option.any_eq_true] at hknown
    obtain ⟨⟨hpeer, hcollection⟩, tags, htags, hkey⟩ := hknown
    simp only [leaned, bind_eq_ok] at h
    obtain ⟨c₀, hfound, plan, hplan, hstarted⟩ := h
    have hnew : Reached Planned (.new 1 1) := .new 1 1
    have hplain : Reached Planned c₀ := hnew.applyAll (by simp [Planned]) hfound
    have hreached := hplain.applyPlan hplan (by simp) hstarted
    obtain ⟨hpeers, hcollections, hgroups⟩ := deletions_removed hreached
    obtain ⟨c', e, hx, hremoved⟩ := hpeers 2 hpeer
    rw [hx] at hafter
    obtain ⟨haborted, hafter⟩ := Prod.mk.inj (Option.some.inj hafter)
    obtain ⟨hcopy, hother⟩ := Prod.mk.inj hafter
    exact ⟨c, rfl, ⟨c', e, hx, hremoved, haborted, hcopy, hother⟩, hcollections _ hcollection,
      hgroups _ tags _ htags hkey⟩

end ShardCluster.Cluster
