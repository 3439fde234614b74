import ShardCluster.Proofs.Cluster.Ready
/-! Which groups a collection has, by its sharding method. No ring of a group is empty, and every
replica and every transfer belongs to a group. -/
namespace ShardCluster
open SortedMap

theorem Collection.contains_setRouter {coll : Collection} {key : Option ShardKey} {r : Router}
    (hr : coll.groups.get? key = some r) (r' : Router) (k : Option ShardKey) :
    (coll.setRouter key r').groups.contains k = coll.groups.contains k := by
  by_cases hk : k = key
  · subst hk
    simp [Collection.setRouter, SortedMap.contains, hr]
  · simp [Collection.setRouter, SortedMap.contains, get?_insert_of_ne hk]

namespace Face

/-- Points go to the one group without a key, or to groups with keys alone. -/
structure Keyed (F : Face) : Prop where
  auto : ∀ coll, F.collection = some coll → coll.config.method = .auto →
    ∀ key, coll.groups.contains key = true ↔ key = none
  custom : ∀ coll, F.collection = some coll → coll.config.method = .custom →
    coll.groups.contains none = false

namespace Keyed
variable {F F' : Face} {w : Wake} {coll coll' : Collection} {op op' : Option Operation} {l l' : Layout}

theorem of_none : Keyed ⟨none, op, l⟩ := ⟨nofun, nofun⟩

theorem congr (h : Keyed ⟨some coll, op, l⟩) (hc : coll'.config = coll.config)
    (hg : ∀ key, coll'.groups.contains key = coll.groups.contains key) :
    Keyed ⟨some coll', op', l'⟩ where
  auto x hx hm key := by
    obtain rfl := Option.some.inj hx
    rw [hg]
    exact h.auto coll rfl (hc ▸ hm) key
  custom x hx hm := by
    obtain rfl := Option.some.inj hx
    rw [hg]
    exact h.custom coll rfl (hc ▸ hm)

/-- A group gets other rings. -/
theorem setRouter (h : Keyed ⟨some coll, op, l⟩) {key : Option ShardKey} {r : Router}
    (hr : coll.router key = .ok r) (r' : Router) : Keyed ⟨some (coll.setRouter key r'), op', l'⟩ :=
  h.congr rfl (Collection.contains_setRouter (Collection.router_eq_ok.1 hr).2 r')

/-- Only groups with keys come and go. -/
theorem rekeyed (h : Keyed ⟨some coll, op, l⟩) (hm : coll.config.method = .custom)
    (hc : coll'.config = coll.config) (hg : coll'.groups.get? none = coll.groups.get? none) :
    Keyed ⟨some coll', op', l'⟩ where
  auto x hx hm' := by
    obtain rfl := Option.some.inj hx
    rw [hc, hm] at hm'
    cases hm'
  custom x hx _ := by
    obtain rfl := Option.some.inj hx
    have hnone := h.custom coll rfl hm
    rwa [SortedMap.contains, ← hg] at hnone

theorem rollsBack (h : F.Keyed) (hb : RollsBack F w F') : F'.Keyed := by
  cases hb with
  | up hr hd => exact h.congr rfl (Collection.contains_setRouter (Collection.router_eq_ok.1 hr).2 _)
  | down hr hd => exact h.congr rfl (Collection.contains_setRouter (Collection.router_eq_ok.1 hr).2 _)

theorem change {name : String} {epoch : UInt64} {entry : Entry} (h : F.Keyed)
    (hc : Change name epoch entry F w F') : F'.Keyed := by
  cases hc with
  | foundAuto hm =>
    refine ⟨fun x hx _ key => ?_, fun x hx hm' => ?_⟩
    · obtain rfl := Option.some.inj hx
      by_cases hk : key = none
      · simp [SortedMap.contains, hk]
      · simp [SortedMap.contains, get?_insert_of_ne hk, hk]
    · obtain rfl := Option.some.inj hx
      cases hm.symm.trans hm'
  | foundCustom hm =>
    refine ⟨fun x hx hm' => ?_, fun x hx _ => ?_⟩
    · obtain rfl := Option.some.inj hx
      cases hm.symm.trans hm'
    · obtain rfl := Option.some.inj hx
      rfl
  | deleted => exact .of_none
  | keyAdded hm => exact h.rekeyed hm rfl (get?_insert_of_ne (by simp) _ _)
  | @keyDropped coll op l key r hr ho =>
    have hm : coll.config.method = .custom := by
      cases hm : coll.config.method with
      | custom => rfl
      | auto => cases (h.auto coll rfl hm (some key)).1 (contains_iff.2 ⟨r, hr⟩)
    exact h.rekeyed hm rfl (get?_erase_of_ne (by simp) _)
  | started hn ht hr hr' =>
    exact h.congr rfl (Collection.contains_setRouter (Collection.router_eq_ok.1 hr).2 _)
  | readCommitted hs hr => exact h.setRouter hr _
  | writeCommitted hs hr => exact h.setRouter hr _
  | finishedUp hs hr => exact h.setRouter hr _
  | finishedDown hs hr => exact h.setRouter hr _
  | rolledBack hb => exact h.rollsBack hb
  | replicated => exact h.congr rfl fun _ => rfl
  | copied => exact h.congr rfl fun _ => rfl
  | sliced => exact h.congr rfl fun _ => rfl
  | discarded => exact h.congr rfl fun _ => rfl
  | unclaimed => exact h
  | replicaDropped => exact h.congr rfl fun _ => rfl
  | stateSet => exact h.congr rfl fun _ => rfl
  | evicted => exact h.congr rfl fun _ => rfl

end Keyed

/-- Neither ring of a group is empty. -/
theorem Fits.filled {F : Face} (h : F.Fits) {key : Option ShardKey} {r : Router} (hg : F.Group key r) :
    (∃ q, r.old.ring.contains q = true) ∧
      ∀ new, r.new = some new → ∃ q, new.ring.contains q = true := by
  refine ⟨h.exists_old hg, fun new hn => ?_⟩
  obtain ⟨hi, -⟩ | ⟨o, -, -, hf⟩ := h.phase hg
  · rw [hi.new] at hn
    cases hn
  · have htarget : r.target = new := by simp [Router.target, hn]
    exact htarget ▸ hf.exists_target

theorem Fits.housed {coll : Collection} {op : Option Operation} {l : Layout}
    (h : Fits ⟨some coll, op, l⟩) {q : ShardId} {p : PeerId} (hl : (l q p).isSome) :
    ∃ key r, Group ⟨some coll, op, l⟩ key r ∧ q ∈ r.shards := by
  obtain ⟨key, r, hr, hq⟩ := Collection.contains_shardSet.1 ((h.fit coll rfl).housed q p hl)
  exact ⟨key, r, group_some.2 hr, hq⟩

/-- A transfer runs between two replicas of one group, that of the operation if it is part of one. -/
theorem Fits.transfer {F : Face} (h : F.Fits) {t : Transfer} (ht : t ∈ F.transfers) :
    (F.look t.key.shard t.key.source).isSome ∧ (F.look t.key.toShard t.key.target).isSome ∧
      ∃ key r, F.Group key r ∧ t.key.shard ∈ r.shards ∧ t.key.toShard ∈ r.shards ∧
        (t.resharding = true → ∃ op, F.operation = some op ∧ op.key = key) := by
  obtain ⟨collection, op, l⟩ := F
  cases collection with
  | none => cases ht
  | some coll =>
    cases op with
    | none =>
      have hcopy := h.idle.2 t ht
      have hsource := Option.isSome_iff_exists.2 ⟨_, hcopy.source⟩
      obtain ⟨key, r, hg, hq⟩ := h.housed hsource
      refine ⟨hsource, Option.isSome_iff_exists.2 ⟨_, hcopy.target⟩, key, r, hg, hq, hcopy.shard ▸ hq,
        fun hm => ?_⟩
      rw [hcopy.whole] at hm
      cases hm
    | some o =>
      obtain ⟨r, -, hr, hf, -, hfeeds, -⟩ := h.live
      have hfeed := hfeeds t ht
      exact ⟨Option.isSome_iff_exists.2 ⟨_, hfeed.source⟩, Option.isSome_iff_exists.2 ⟨_, hfeed.target⟩,
        o.key, r, group_some.2 hr, hfeed.shard_mem hf, hfeed.toShard_mem hf, fun _ => ⟨o, rfl, rfl⟩⟩

end Face

theorem Cluster.Reached.keyed {allowed : Cluster → Entry → Prop} {c : Cluster} (h : Reached allowed c)
    (name : String) : (c.face name).Keyed :=
  h.invariant (Q := fun _ _ _ => True) .of_none (fun h hb => h.rollsBack hb)
    (fun h _ hc => h.change hc) (fun _ _ _ _ => ⟨trivial, fun _ _ _ => trivial⟩) name

end ShardCluster
