import ShardCluster.Proofs.Cluster.Planning
import ShardCluster.Proofs.Cluster.RingAgreement
/-! How the replicas, the transfers and the operation of a collection fit together. The parts rest on
each other, so they are one invariant. -/
namespace ShardCluster
open SortedMap

theorem Collection.contains_shardSet {coll : Collection} {q : ShardId} :
    coll.shardSet.contains q = true ↔ ∃ key r, coll.groups.get? key = some r ∧ q ∈ r.shards := by
  have hfold : ∀ (l : List Router) (s : SortedSet ShardId),
      SortedMap.contains (l.foldl (fun s r => SortedSet.union s r.shardSet) s) q = true ↔
        (∃ r ∈ l, q ∈ r.shards) ∨ s.contains q = true := by
    intro l
    induction l with
    | nil => simp
    | cons r rest ih =>
      intro s
      rw [List.foldl_cons, ih, SortedSet.contains_union, Router.contains_shardSet]
      simp only [List.mem_cons, exists_eq_or_imp]
      constructor
      · intro h
        obtain h | h | h := h
        · exact .inl (.inr h)
        · exact .inr h
        · exact .inl (.inl h)
      · intro h
        obtain (h | h) | h := h
        · exact .inr (.inr h)
        · exact .inl h
        · exact .inr (.inl h)
  rw [Collection.shardSet, hfold]
  simp only [mem_values]
  constructor
  · intro h
    obtain ⟨r, ⟨key, hr⟩, hq⟩ | h := h
    · exact ⟨key, r, hr, hq⟩
    · simp [SortedMap.contains] at h
  · intro h
    obtain ⟨key, r, hr, hq⟩ := h
    exact .inl ⟨r, ⟨key, hr⟩, hq⟩

/-- A placement of new shards leaves the old ones as they are. -/
theorem Layout.placed_of_old {coll : Collection} {l : Layout} {placement : Placement}
    (hn : ∀ q ∈ placement.keys, coll.shardSet.contains q = false) {q : ShardId}
    (hq : coll.shardSet.contains q = true) (p : PeerId) : l.placed placement q p = l q p := by
  refine placed_of_not_mem (fun hk => ?_) p
  rw [hn q hk] at hq
  cases hq

/-- No shard is in two groups, and every group has a shard. -/
structure Parted (groups : SortedMap (Option ShardKey) Router) : Prop where
  apart : ∀ {key r key' r' q}, groups.get? key = some r → groups.get? key' = some r' →
    q ∈ r.shards → q ∈ r'.shards → key = key'
  filled : ∀ {key r}, groups.get? key = some r → ∃ q, r.old.ring.contains q = true

namespace Parted
variable {groups : SortedMap (Option ShardKey) Router}

theorem empty : Parted .empty := ⟨nofun, nofun⟩

/-- A group may take any shards that no other group has. -/
theorem insert (h : Parted groups) {key : Option ShardKey} {r : Router}
    (hf : ∃ q, r.old.ring.contains q = true)
    (ha : ∀ q ∈ r.shards, ∀ key' r', groups.get? key' = some r' → q ∈ r'.shards → key' = key) :
    Parted (groups.insert key r) where
  apart {key₁ r₁ key₂ r₂ q} h₁ h₂ hq₁ hq₂ := by
    rw [get?_insert] at h₁ h₂
    split at h₁
    · obtain rfl := Option.some.inj h₁
      split at h₂
      · simp_all
      · rename_i hk₁ _
        rw [ha q hq₁ key₂ r₂ h₂ hq₂, hk₁]
    · split at h₂
      · obtain rfl := Option.some.inj h₂
        rename_i hk₂
        rw [ha q hq₂ key₁ r₁ h₁ hq₁, hk₂]
      · exact h.apart h₁ h₂ hq₁ hq₂
  filled {key' r'} hr := by
    rw [get?_insert] at hr
    split at hr
    · exact Option.some.inj hr ▸ hf
    · exact h.filled hr

theorem erase (h : Parted groups) (key : Option ShardKey) : Parted (groups.erase key) where
  apart h₁ h₂ := h.apart (get?_erase_eq_some.1 h₁).2 (get?_erase_eq_some.1 h₂).2
  filled hr := h.filled (get?_erase_eq_some.1 hr).2

end Parted

/-- A transfer of a whole shard, from an active replica to one that it makes. -/
structure Transfer.Copies (t : Transfer) (l : Layout) : Prop where
  whole : t.resharding = false
  shard : t.key.shard = t.key.toShard
  running : t.status = .running
  source : l t.key.shard t.key.source = some .active
  target : l t.key.toShard t.key.target = some .partialCopy

/-- A transfer of an operation, from an active replica to one that the operation fills. -/
structure Transfer.Feeds (t : Transfer) (l : Layout) (o : Operation) (r : Router) : Prop where
  slice : t.resharding = true
  source : l t.key.shard t.key.source = some .active
  target : l t.key.toShard t.key.target = some .resharding
  up : o.direction = .up →
    t.key.destination = (o.shard, o.peer) ∧ r.old.ring.contains t.key.shard = true
  down : o.direction = .down → t.key.shard = o.shard ∧ t.key.source = o.peer ∧
    t.key.toShard ≠ o.shard ∧ r.old.ring.contains t.key.toShard = true

/-- The replicas that an operation fills: the one that comes, or some of every shard that stays. -/
structure Layout.Filled (l : Layout) (o : Operation) (r : Router) : Prop where
  up : o.direction = .up → ∀ q p, l q p = some .resharding ↔ q = o.shard ∧ p = o.peer
  alone : o.direction = .up → ∀ p, p ≠ o.peer → l o.shard p = .none
  down : o.direction = .down →
    (∀ q, r.old.ring.contains q = true → q ≠ o.shard → ∃ p, l q p = some .resharding) ∧
    ∀ q p, l q p = some .resharding → r.old.ring.contains q = true ∧ q ≠ o.shard

theorem Layout.Filled.congr {l l' : Layout} {o : Operation} {r : Router} (h : l.Filled o r)
    (hl : ∀ q p, l' q p = some .resharding ↔ l q p = some .resharding)
    (hn : ∀ p, l o.shard p = .none → l' o.shard p = .none) : l'.Filled o r where
  up hd q p := (hl q p).trans (h.up hd q p)
  alone hd p hp := hn p (h.alone hd p hp)
  down hd := by
    obtain ⟨hall, honly⟩ := h.down hd
    refine ⟨fun q hq hne => ?_, fun q p hs => honly q p ((hl q p).1 hs)⟩
    obtain ⟨p, hp⟩ := hall q hq hne
    exact ⟨p, (hl q p).2 hp⟩

theorem Transfer.Feeds.congr {l l' : Layout} {o : Operation} {r : Router} {t : Transfer}
    (h : t.Feeds l o r) (hs : l' t.key.shard t.key.source = some .active)
    (ht : l' t.key.toShard t.key.target = some .resharding) : t.Feeds l' o r :=
  ⟨h.slice, hs, ht, h.up, h.down⟩

/-- A transfer of an operation stays within the group. -/
theorem Transfer.Feeds.shard_mem {l : Layout} {o : Operation} {r : Router} {t : Transfer}
    (h : t.Feeds l o r) (hf : r.Follows o) : t.key.shard ∈ r.shards := by
  cases hd : o.direction with
  | up => exact (hf.mem_shards_up hd).2 (.inr (h.up hd).2)
  | down => exact (h.down hd).1 ▸ hf.shard_mem

theorem Transfer.Feeds.toShard_mem {l : Layout} {o : Operation} {r : Router} {t : Transfer}
    (h : t.Feeds l o r) (hf : r.Follows o) : t.key.toShard ∈ r.shards := by
  cases hd : o.direction with
  | up => exact (Prod.mk.inj (h.up hd).1).1 ▸ hf.shard_mem
  | down => exact (hf.mem_shards_down hd).2 (h.down hd).2.2.2

theorem Transfer.Copies.congr {l l' : Layout} {t : Transfer} (h : t.Copies l)
    (hs : l' t.key.shard t.key.source = some .active)
    (ht : l' t.key.toShard t.key.target = some .partialCopy) : t.Copies l' :=
  ⟨h.whole, h.shard, h.running, hs, ht⟩

/-- The replicas and the transfers of a collection are those that its operation needs. -/
structure Fit (coll : Collection) (op : Option Operation) (l : Layout) : Prop where
  parted : Parted coll.groups
  housed : ∀ q p, (l q p).isSome → coll.shardSet.contains q = true
  keys : (coll.transfers.map (·.key)).Nodup
  paced : Transfer.Paced coll.transfers
  idle : op = none → (∀ q p, l q p ≠ some .resharding) ∧ ∀ t ∈ coll.transfers, t.Copies l
  live : ∀ o r, op = some o → coll.router o.key = .ok r →
    l.Filled o r ∧ (∀ t ∈ coll.transfers, t.Feeds l o r) ∧
      (coll.transfers ≠ [] ↔ o.stage = .starting)

namespace Fit
variable {coll coll' : Collection} {op : Option Operation} {o : Operation} {l l' : Layout}
  {r r' : Router}

/-- The shards of a group are those of the collection. -/
theorem shardSet_of_group {key : Option ShardKey} (hr : coll.groups.get? key = some r) {q : ShardId}
    (hq : q ∈ r.shards) : coll.shardSet.contains q = true :=
  Collection.contains_shardSet.2 ⟨key, r, hr, hq⟩

theorem unhoused (h : Fit coll op l) {q : ShardId} (hq : coll.shardSet.contains q = false) (p : PeerId) :
    l q p = none := by
  cases hl : l q p with
  | none => rfl
  | some s =>
    rw [h.housed q p (by simp [hl])] at hq
    cases hq

/-- The end of an operation: its group comes to rest on some of its shards. -/
theorem rest (h : Fit coll (some o) l) (hr : coll.router o.key = .ok r) (hi : r'.Idle)
    (hg : coll'.groups = coll.groups.insert o.key r') (ht : coll'.transfers = [])
    (hsub : ∀ q, r'.old.ring.contains q = true → q ∈ r.shards)
    (hne : ∃ q, r'.old.ring.contains q = true)
    (hl : ∀ q p, (l' q p).isSome → (l q p).isSome ∧ (q ∈ r.shards → r'.old.ring.contains q = true))
    (hfree : ∀ q p, l' q p ≠ some .resharding) : Fit coll' none l' where
  parted := by
    rw [hg]
    refine h.parted.insert hne fun q hq key' r₀ hr₀ hq₀ => ?_
    exact h.parted.apart hr₀ (Collection.router_eq_ok.1 hr).2 hq₀ (hsub q (hi.mem_shards.1 hq))
  housed q p hs := by
    obtain ⟨hs, hq⟩ := hl q p hs
    obtain ⟨key, r₀, hr₀, hq₀⟩ := Collection.contains_shardSet.1 (h.housed q p hs)
    rw [Collection.contains_shardSet, hg]
    by_cases hk : key = o.key
    · subst hk
      obtain rfl := Option.some.inj ((Collection.router_eq_ok.1 hr).2.symm.trans hr₀)
      exact ⟨o.key, r', get?_insert_self _ _ _, hi.mem_shards.2 (hq hq₀)⟩
    · exact ⟨key, r₀, by rw [get?_insert_of_ne hk, hr₀], hq₀⟩
  keys := by simp [ht]
  paced := by simp [ht, Transfer.Paced]
  idle _ := ⟨hfree, by simp [ht]⟩
  live _ _ ho := by cases ho

/-- What an operation fills is in its group. -/
theorem resharding_mem (h : Fit coll (some o) l) (hr : coll.router o.key = .ok r) (hf : r.Follows o)
    {q : ShardId} {p : PeerId} (hl : l q p = some .resharding) : q ∈ r.shards := by
  obtain ⟨hfill, -, -⟩ := h.live o r rfl hr
  cases hd : o.direction with
  | up =>
    obtain ⟨rfl, -⟩ := (hfill.up hd q p).1 hl
    exact hf.shard_mem
  | down => exact (hf.mem_shards_down hd).2 ((hfill.down hd).2 q p hl).1

/-- While an operation is live there are no other transfers. -/
theorem slices (h : Fit coll (some o) l) (hr : coll.router o.key = .ok r) :
    ∀ t ∈ coll.transfers, t.resharding = true :=
  fun t ht => ((h.live o r rfl hr).2.1 t ht).slice

/-- The transfers of an operation are in its first stage. -/
theorem transfers_nil (h : Fit coll (some o) l) (hr : coll.router o.key = .ok r)
    (hs : o.stage ≠ .starting) : coll.transfers = [] := by
  obtain ⟨-, -, hlive⟩ := h.live o r rfl hr
  by_cases hnil : coll.transfers = []
  · exact hnil
  · exact absurd (hlive.1 hnil) hs

/-- Settling the group settles everything. -/
theorem settled_free (h : Fit coll (some o) l) (hr : coll.router o.key = .ok r) (hf : r.Follows o)
    (q : ShardId) (p : PeerId) : l.settled r.shards q p ≠ some .resharding := by
  intro hs
  by_cases hc : l q p = some .resharding ∧ q ∈ r.shards
  · simp [Layout.settled, hc] at hs
  · have hl : l q p = some .resharding := by simpa [Layout.settled, hc] using hs
    exact hc ⟨hl, h.resharding_mem hr hf hl⟩

theorem take_slices (h : Fit coll (some o) l) (hr : coll.router o.key = .ok r) :
    (coll.take (·.resharding)).1.transfers = [] := by
  refine List.filter_eq_nil_iff.2 fun t ht => ?_
  simp [h.slices hr t ht]

theorem rollsBack {F F' : Face} {w : Wake} (ha : F.Agrees)
    (hfit : ∀ coll, F.collection = some coll → Fit coll F.operation F.look) (hb : RollsBack F w F') :
    ∀ coll, F'.collection = some coll → Fit coll F'.operation F'.look := by
  cases hb with
  | @up coll o l r hr hd =>
    intro coll' hcoll
    obtain rfl := Option.some.inj hcoll
    have h := hfit coll rfl
    have hf := ha.follows hr
    obtain ⟨hfill, -, -⟩ := h.live o r rfl hr
    have hne : ∃ q, r.old.ring.contains q = true := h.parted.filled (Collection.router_eq_ok.1 hr).2
    refine h.rest hr (.abort r) rfl (h.take_slices hr) (fun q hq => (hf.mem_shards_up hd).2 (.inr hq))
      hne (fun q p hs => ?_) (fun q p hs => ?_)
    · obtain ⟨s, hs⟩ := Option.isSome_iff_exists.1 hs
      obtain ⟨hq, hs⟩ := Layout.without_eq_some.1 hs
      exact ⟨by simp [hs], fun hm => ((hf.mem_shards_up hd).1 hm).resolve_left (by simpa using hq)⟩
    · obtain ⟨hq, hs⟩ := Layout.without_eq_some.1 hs
      exact hq (by simp [((hfill.up hd q p).1 hs).1])
  | @down coll o l r hr hd =>
    intro coll' hcoll
    obtain rfl := Option.some.inj hcoll
    have h := hfit coll rfl
    have hf := ha.follows hr
    have hne : ∃ q, r.old.ring.contains q = true := h.parted.filled (Collection.router_eq_ok.1 hr).2
    refine h.rest hr (.abort r) rfl (h.take_slices hr) (fun q hq => (hf.mem_shards_down hd).2 hq) hne
      (fun q p hs => ?_) (h.settled_free hr hf)
    rw [Cluster.settled_isSome] at hs
    exact ⟨hs, (hf.mem_shards_down hd).1⟩

end Fit

namespace Face

/-- Rings and operation agree, and the replicas and transfers fit. -/
structure Fits (F : Face) : Prop where
  agrees : F.Agrees
  fit : ∀ coll, F.collection = some coll → Fit coll F.operation F.look

end Face
end ShardCluster
