import ShardCluster.Proofs.Cluster.Fit
import ShardCluster.Proofs.Cluster.Planning
/-! Changes of the groups of a collection and of their rings keep its parts fitted together, provided
that operations start by plans. -/
namespace ShardCluster
open SortedMap

namespace Collection
variable {coll coll' : Collection} {key : Option ShardKey} {r r' : Router}

/-- The shards of a collection stay while its groups do. -/
theorem shardSet_mono (h : ∀ key r, coll.groups.get? key = some r →
      ∃ r', coll'.groups.get? key = some r' ∧ ∀ q ∈ r.shards, q ∈ r'.shards)
    {q : ShardId} (hq : coll.shardSet.contains q = true) : coll'.shardSet.contains q = true := by
  obtain ⟨key, r, hr, hq⟩ := contains_shardSet.1 hq
  obtain ⟨r', hr', hsub⟩ := h key r hr
  exact contains_shardSet.2 ⟨key, r', hr', hsub q hq⟩

theorem shardSet_insert (hg : coll'.groups = coll.groups.insert key r')
    (hr : ∀ r, coll.groups.get? key = some r → ∀ q ∈ r.shards, q ∈ r'.shards)
    {q : ShardId} (hq : coll.shardSet.contains q = true) : coll'.shardSet.contains q = true := by
  refine shardSet_mono (fun key' x hx => ?_) hq
  rw [hg, get?_insert]
  by_cases hk : key' = key
  · subst hk
    exact ⟨r', by simp, hr x hx⟩
  · exact ⟨x, by simpa [hk] using hx, fun q hq => hq⟩

end Collection

namespace Fit
variable {coll coll' : Collection} {op : Option Operation} {o : Operation} {l l' : Layout}
  {r r' : Router} {t : Transfer} {key : Option ShardKey}

theorem found {config : CollectionConfig} {placement : Placement} (n : Nat)
    (hp : placement.isEmpty = false) :
    Fit { config, groups := .insert .empty none (.single (.ofShards n placement.keys)) } none
      (Layout.none.placed placement) where
  parted := by
    refine Parted.empty.insert ?_ nofun
    obtain ⟨q, hq⟩ := exists_key hp
    exact ⟨q, Ring.contains_ofShards.2 hq⟩
  housed q p hs := by
    refine Collection.contains_shardSet.2 ⟨none, _, get?_insert_self _ _ _, ?_⟩
    refine (Router.Idle.single _).mem_shards.2 (Ring.contains_ofShards.2 (mem_keys.2 ?_))
    cases hx : placement.get? q with
    | none => simp [Layout.placed, hx, Layout.none] at hs
    | some x => exact ⟨x, rfl⟩
  keys := by simp
  paced := .nil
  idle _ := by
    refine ⟨fun q p => ?_, by simp⟩
    simp only [Layout.placed, Layout.none]
    split <;> simp
  live _ _ ho := by cases ho

/-- The operation and the transfers stay with their groups while other groups come and go. -/
theorem regroup (h : Fit coll op l) (ha : Face.Agrees ⟨some coll, op, l⟩) (hp : Parted coll'.groups)
    (hh : ∀ q p, (l' q p).isSome → coll'.shardSet.contains q = true)
    (hsub : coll'.transfers.Sublist coll.transfers)
    (hmark : ∀ q p, l' q p = some .resharding → l q p = some .resharding)
    (hidle : op = none → ∀ t ∈ coll'.transfers, ∀ p,
      l' t.key.shard p = l t.key.shard p ∧ l' t.key.toShard p = l t.key.toShard p)
    (hlive : ∀ o r, op = some o → coll.groups.get? o.key = some r →
      coll'.groups.get? o.key = some r ∧ (∀ q ∈ r.shards, ∀ p, l' q p = l q p) ∧
        ((∀ t ∈ coll.transfers, t.key.shard ∈ r.shards ∧ t.key.toShard ∈ r.shards) →
          coll'.transfers = coll.transfers)) : Fit coll' op l' where
  parted := hp
  housed := hh
  keys := h.keys.sublist (hsub.map _)
  paced := h.paced.sublist hsub
  idle ho := by
    obtain ⟨hfree, hcopies⟩ := h.idle ho
    refine ⟨fun q p hs => hfree q p (hmark q p hs), fun t ht => ?_⟩
    have hc := hcopies t (hsub.subset ht)
    exact hc.congr ((hidle ho t ht _).1.trans hc.source) ((hidle ho t ht _).2.trans hc.target)
  live o x ho hx := by
    subst ho
    obtain ⟨r, hr, hf⟩ := ha.exists_router
    obtain ⟨hgroup, hsame, htransfers⟩ := hlive o r rfl (Collection.router_eq_ok.1 hr).2
    obtain rfl := Option.some.inj (hgroup.symm.trans (Collection.router_eq_ok.1 hx).2)
    obtain ⟨hfill, hfeeds, hstage⟩ := h.live o r rfl hr
    rw [htransfers fun t ht => ⟨(hfeeds t ht).shard_mem hf, (hfeeds t ht).toShard_mem hf⟩]
    refine ⟨hfill.congr (fun q p => ⟨hmark q p, fun hs => ?_⟩) fun p hl => ?_, fun t ht => ?_, hstage⟩
    · exact (hsame q (h.resharding_mem hr hf hs) p).trans hs
    · exact (hsame _ hf.shard_mem p).trans hl
    · have hc := hfeeds t ht
      exact hc.congr ((hsame _ (hc.shard_mem hf) _).trans hc.source)
        ((hsame _ (hc.toShard_mem hf) _).trans hc.target)

/-- A group of new shards. -/
theorem keyAdded (h : Fit coll op l) (ha : Face.Agrees ⟨some coll, op, l⟩) {key : ShardKey}
    {placement : Placement} (n : Nat) (hk : coll.groups.get? (some key) = none)
    (hp : placement.isEmpty = false) (hn : ∀ q ∈ placement.keys, coll.shardSet.contains q = false) :
    Fit (coll.setRouter (some key) (.single (.ofShards n placement.keys))) op (l.placed placement) := by
  have hmem : ∀ q, q ∈ (Router.single (.ofShards n placement.keys)).shards ↔ q ∈ placement.keys :=
    fun q => (Router.Idle.single _).mem_shards.trans Ring.contains_ofShards
  have hplaced : ∀ q p, coll.shardSet.contains q = true → l.placed placement q p = l q p :=
    fun q p hq => Layout.placed_of_old hn hq p
  refine h.regroup ha ?_ (fun q p hs => ?_) (.refl _) (fun q p hs => ?_) (fun ho t ht p => ?_)
    fun o r ho hr => ?_
  · refine h.parted.insert ?_ fun q hq key' r' hr' hq' => ?_
    · obtain ⟨q, hq⟩ := exists_key hp
      exact ⟨q, Ring.contains_ofShards.2 hq⟩
    · have hold := shardSet_of_group hr' hq'
      rw [hn q ((hmem q).1 hq)] at hold
      cases hold
  · by_cases hq : q ∈ placement.keys
    · exact shardSet_of_group (get?_insert_self _ _ _) ((hmem q).2 hq)
    · rw [Layout.placed_of_not_mem hq] at hs
      exact Collection.shardSet_insert rfl (fun r hr => by rw [hk] at hr; cases hr) (h.housed q p hs)
  · obtain hs | ⟨hs, -⟩ := Layout.placed_cases hs
    · exact hs
    · cases hs
  · have hc := (h.idle ho).2 t ht
    exact ⟨hplaced _ p (h.housed _ t.key.source (by simp [hc.source])),
      hplaced _ p (h.housed _ t.key.target (by simp [hc.target]))⟩
  · subst ho
    exact ⟨(get?_insert_of_ne (ha.key_ne hk) _ _).trans hr,
      fun q hq p => hplaced q p (shardSet_of_group hr hq), fun _ => rfl⟩

/-- A group goes that no operation is about. -/
theorem keyDropped (h : Fit coll op l) (ha : Face.Agrees ⟨some coll, op, l⟩)
    (hr : coll.groups.get? key = some r) (ho : ∀ o, op = some o → o.key ≠ key) :
    Fit { coll with
        groups := coll.groups.erase key
        transfers := coll.transfers.filter
          (fun t => !(r.shards.contains t.key.shard || r.shards.contains t.key.toShard)) } op
      (l.without r.shards) := by
  refine h.regroup ha (h.parted.erase key) (fun q p hs => ?_) List.filter_sublist
    (fun q p hs => (Layout.without_eq_some.1 hs).2) (fun _ t ht p => ?_) fun o x hop hx => ?_
  · obtain ⟨s, hs⟩ := Option.isSome_iff_exists.1 hs
    obtain ⟨hq, hs⟩ := Layout.without_eq_some.1 hs
    obtain ⟨key', r', hr', hq'⟩ := Collection.contains_shardSet.1 (h.housed q p (by simp [hs]))
    have hne : key' ≠ key := fun he => by
      subst he
      obtain rfl := Option.some.inj (hr.symm.trans hr')
      exact hq hq'
    exact shardSet_of_group ((get?_erase_of_ne hne _).trans hr') hq'
  · obtain ⟨-, hp⟩ := List.mem_filter.1 ht
    obtain ⟨hq, hq'⟩ : t.key.shard ∉ r.shards ∧ t.key.toShard ∉ r.shards := by simpa using hp
    exact ⟨Layout.without_of_not_mem hq p, Layout.without_of_not_mem hq' p⟩
  · have hapart : ∀ q ∈ x.shards, q ∉ r.shards := fun q hq hq' =>
      ho o hop (h.parted.apart hx hr hq hq')
    refine ⟨(get?_erase_of_ne (ho o hop) _).trans hx,
      fun q hq p => Layout.without_of_not_mem (hapart q hq) p, fun hin => ?_⟩
    refine List.filter_eq_self.2 fun t ht => ?_
    simp [hapart _ (hin t ht).1, hapart _ (hin t ht).2]

/-- The shards of a group whose operation starts are its old ones, and the one that comes. -/
theorem mem_started {op : Operation} (hi : r.Idle) (hr' : r.start op.change = .ok r') {q : ShardId}
    (hq : q ∈ r'.shards) : q ∈ r.shards ∨ op.direction = .up ∧ q = op.shard := by
  have hf : r'.Follows { op with stage := .starting } := hi.start hr' rfl
  obtain ⟨-, ring, -, rfl⟩ := Router.start_eq_ok.1 hr'
  cases hd : op.direction with
  | up =>
    obtain hq | hq := (hf.mem_shards_up hd).1 hq
    · exact .inr ⟨rfl, hq⟩
    · exact .inl (hi.mem_shards.2 hq)
  | down => exact .inl (hi.mem_shards.2 ((hf.mem_shards_down hd).1 hq))

section
variable {plan : Plan} {stage : Stage} (h : Fit coll none l) (hget : coll.groups.get? key = some r)
  (hi : r.Idle) (hold : r'.old = r.old) (hp : plan.Fits coll l r)
include h hget hi hold hp

/-- The first replica of the shard that comes is claimed, and is the only one. -/
theorem claimed_up (hd : plan.operation.direction = .up) :
    (l.claimed plan.operation plan.transfers).Filled { plan.operation with stage } r' ∧
      ∀ t ∈ plan.transfers,
        t.Feeds (l.claimed plan.operation plan.transfers) { plan.operation with stage } r' := by
  obtain ⟨hfresh, hends, -⟩ := hp.up hd
  have hfree := (h.idle rfl).1
  have hnew : ∀ q p, q ≠ plan.operation.shard →
      l.claimed plan.operation plan.transfers q p = l q p := fun q p hq => by
    simp [Layout.claimed, hd, Layout.put, hq]
  have hhost : l.claimed plan.operation plan.transfers plan.operation.shard plan.operation.peer =
      some .resharding := by simp [Layout.claimed, hd, Layout.put]
  have hnone := h.unhoused hfresh
  have hother : ∀ p, p ≠ plan.operation.peer →
      l.claimed plan.operation plan.transfers plan.operation.shard p = none := fun p hne => by
    simp [Layout.claimed, hd, Layout.put, hne, hnone]
  refine ⟨⟨fun _ q p => ⟨fun hs => ?_, fun hq => ?_⟩, fun _ => hother, fun hd' => ?_⟩,
    fun t hin => ?_⟩
  · by_cases hq : q = plan.operation.shard
    · subst hq
      refine ⟨rfl, ?_⟩
      by_cases hpeer : p = plan.operation.peer
      · exact hpeer
      · rw [hother p hpeer] at hs
        cases hs
    · exact absurd ((hnew q p hq) ▸ hs) (hfree q p)
  · obtain ⟨rfl, rfl⟩ := hq
    exact hhost
  · cases hd.symm.trans hd'
  · obtain ⟨hdest, hshard, hsource⟩ := hends t hin
    obtain ⟨hq, hpeer⟩ := Prod.mk.inj hdest
    have hne : t.key.shard ≠ plan.operation.shard := fun he => by
      rw [← he, shardSet_of_group hget hshard] at hfresh
      cases hfresh
    refine ⟨hp.slices t hin, (hnew _ _ hne).trans hsource, ?_, fun _ => ⟨hdest, ?_⟩, fun hd' => ?_⟩
    · rw [hq, hpeer]
      exact hhost
    · rw [hold]
      exact hi.mem_shards.1 hshard
    · cases hd.symm.trans hd'

omit h hget in
/-- The replicas that take over are claimed, some of every shard that stays. -/
theorem claimed_down (hfree : ∀ q p, l q p ≠ some .resharding)
    (hd : plan.operation.direction = .down) :
    (l.claimed plan.operation plan.transfers).Filled { plan.operation with stage } r' ∧
      ∀ t ∈ plan.transfers,
        t.Feeds (l.claimed plan.operation plan.transfers) { plan.operation with stage } r' := by
  obtain ⟨hsource, hends, hactive, hall, -⟩ := hp.down hd
  have hmarked : ∀ q p, l.claimed plan.operation plan.transfers q p = some .resharding ↔
      ∃ t ∈ plan.transfers, t.key.destination = (q, p) := by
    intro q p
    simp only [Layout.claimed, hd, Layout.marked, List.mem_map]
    by_cases hm : ∃ t ∈ plan.transfers, t.key.destination = (q, p)
    · simp [hm]
    · simpa [hm] using hfree q p
  have hleft : l.claimed plan.operation plan.transfers plan.operation.shard plan.operation.peer =
      some .active := by
    have hnot : ¬∃ t ∈ plan.transfers, t.key.destination =
        (plan.operation.shard, plan.operation.peer) := by
      intro hx
      obtain ⟨t', hin', hdest⟩ := hx
      exact (hends t' hin').2.2.2.1 (Prod.mk.inj hdest).1
    simp only [Layout.claimed, hd, Layout.marked, List.mem_map, if_neg hnot]
    exact hsource
  refine ⟨⟨fun hd' => ?_, fun hd' => ?_, fun _ => ⟨fun q hq hne => ?_, fun q p hs => ?_⟩⟩,
    fun t hin => ?_⟩
  · cases hd.symm.trans hd'
  · cases hd.symm.trans hd'
  · have hq' : q ∈ r.shards := hi.mem_shards.2 (hold ▸ hq)
    obtain ⟨p, hl⟩ := hactive q hq' hne
    obtain ⟨t, hin, hdest⟩ := hall q hq' hne p hl
    exact ⟨p, (hmarked q p).2 ⟨t, hin, hdest⟩⟩
  · obtain ⟨t, hin, hdest⟩ := (hmarked q p).1 hs
    obtain ⟨rfl, rfl⟩ := Prod.mk.inj hdest
    obtain ⟨-, -, hq, hne, -⟩ := hends t hin
    exact ⟨hold ▸ hi.mem_shards.1 hq, hne⟩
  · obtain ⟨hshard, hpeer, hq, hne, -⟩ := hends t hin
    refine ⟨hp.slices t hin, ?_, (hmarked _ _).2 ⟨t, hin, rfl⟩, fun hd' => ?_,
      fun _ => ⟨hshard, hpeer, hne, ?_⟩⟩
    · rw [hshard, hpeer]
      exact hleft
    · cases hd.symm.trans hd'
    · rw [hold]
      exact hi.mem_shards.1 hq

end

/-- An operation starts by a plan. -/
theorem started {plan : Plan} (h : Fit coll none l) (hi : r.Idle)
    (hr : coll.router plan.operation.key = .ok r) (hr' : r.start plan.operation.change = .ok r')
    (hp : plan.Fits coll l r) (epoch : UInt64) :
    Fit { coll.setRouter plan.operation.key r' with
        transfers := plan.transfers.map (fun t => { t with epoch }) }
      (some { plan.operation with
        stage := if plan.transfers = [] then .awaitingReadCommit else .starting })
      (l.claimed plan.operation plan.transfers) := by
  have hget := (Collection.router_eq_ok.1 hr).2
  have hold : r'.old = r.old := Router.start_old hr'
  have hf : r'.Follows { plan.operation with stage := .starting } := hi.start hr' rfl
  have hsub : ∀ q ∈ r.shards, q ∈ r'.shards := fun q hq =>
    Router.mem_shards.2 (.inl (hold ▸ hi.mem_shards.1 hq))
  have hhere : (coll.setRouter plan.operation.key r').groups.get? plan.operation.key = some r' :=
    get?_insert_self _ _ _
  refine ⟨?_, fun q p hs => ?_, ?_, List.pairwise_map.2 hp.paced, nofun, fun o x ho hx => ?_⟩
  · refine h.parted.insert (hold ▸ h.parted.filled hget) fun q hq key' y hy hq' => ?_
    obtain hq | ⟨hd, rfl⟩ := mem_started hi hr' hq
    · exact h.parted.apart hy hget hq' hq
    · have hfresh := (hp.up hd).1
      rw [shardSet_of_group hy hq'] at hfresh
      cases hfresh
  · have hmono : coll.shardSet.contains q = true →
        (coll.setRouter plan.operation.key r').shardSet.contains q = true := by
      refine Collection.shardSet_insert rfl fun y hy => ?_
      obtain rfl := Option.some.inj (hget.symm.trans hy)
      exact hsub
    cases hd : plan.operation.direction with
    | up =>
      simp only [Layout.claimed, hd, Layout.put] at hs
      split at hs
      · rename_i hq
        exact shardSet_of_group hhere (hq.1 ▸ hf.shard_mem)
      · exact hmono (h.housed q p hs)
    | down =>
      simp only [Layout.claimed, hd, Layout.marked] at hs
      split at hs
      · rename_i hm
        obtain ⟨t, hin, hdest⟩ := List.mem_map.1 hm
        obtain ⟨rfl, rfl⟩ := Prod.mk.inj hdest
        exact shardSet_of_group hhere (hsub _ ((hp.down hd).2.1 t hin).2.2.1)
      · exact hmono (h.housed q p hs)
  · simpa [Function.comp_def] using hp.keys
  · obtain rfl := Option.some.inj ho
    obtain rfl : r' = x := Option.some.inj (hhere.symm.trans (Collection.router_eq_ok.1 hx).2)
    obtain ⟨hfill, hfeeds⟩ : (l.claimed plan.operation plan.transfers).Filled { plan.operation with
          stage := if plan.transfers = [] then .awaitingReadCommit else .starting } r' ∧
        ∀ t ∈ plan.transfers, t.Feeds (l.claimed plan.operation plan.transfers) { plan.operation with
          stage := if plan.transfers = [] then .awaitingReadCommit else .starting } r' := by
      cases hd : plan.operation.direction with
      | up => exact claimed_up h hget hi hold hp hd
      | down => exact claimed_down hi hold hp (h.idle rfl).1 hd
    refine ⟨hfill, fun t hin => ?_, ?_⟩
    · obtain ⟨t, hin', rfl⟩ := List.mem_map.1 hin
      obtain ⟨h₁, h₂, h₃, h₄, h₅⟩ := hfeeds t hin'
      exact ⟨h₁, h₂, h₃, h₄, h₅⟩
    · by_cases hnil : plan.transfers = [] <;> simp [hnil]

/-- A commit: the rings for reads and writes do not matter. -/
theorem committed (h : Fit coll (some o) l) (hr : coll.router o.key = .ok r)
    (hs : o.stage ≠ .starting) (hold : r'.old = r.old) (hsub : ∀ q, q ∈ r'.shards ↔ q ∈ r.shards)
    {stage : Stage} (hstage : stage ≠ .starting) :
    Fit (coll.setRouter o.key r') (some { o with stage }) l := by
  have hget := (Collection.router_eq_ok.1 hr).2
  obtain ⟨hfill, -, -⟩ := h.live o r rfl hr
  have hnil : coll.transfers = [] := h.transfers_nil hr hs
  refine ⟨?_, fun q p hq => ?_, h.keys, h.paced, nofun, fun o' x ho hx => ?_⟩
  · refine h.parted.insert (hold ▸ h.parted.filled hget) fun q hq key' y hy hq' => ?_
    exact h.parted.apart hy hget hq' ((hsub q).1 hq)
  · refine Collection.shardSet_insert rfl (fun y hy q hq => ?_) (h.housed q p hq)
    obtain rfl := Option.some.inj (hget.symm.trans hy)
    exact (hsub q).2 hq
  · obtain rfl := Option.some.inj ho
    obtain rfl : r' = x := Option.some.inj
      ((get?_insert_self _ _ _).symm.trans (Collection.router_eq_ok.1 hx).2)
    have htransfers : (coll.setRouter o.key r').transfers = [] := hnil
    refine ⟨⟨hfill.up, hfill.alone, fun hd => ?_⟩, ?_, ?_⟩
    · rw [hold]
      exact hfill.down hd
    · simp [htransfers]
    · simp [htransfers, hstage]

theorem finishedUp (h : Fit coll (some o) l) (hf : r.Follows o) (hr : coll.router o.key = .ok r)
    (hs : o.stage = .awaitingFinish) (hr' : r.finish = .ok r') (hd : o.direction = .up) :
    Fit (coll.setRouter o.key r') none (l.settled r.shards) := by
  have hold : r'.old.ring = r.old.ring.add o.shard := by
    obtain ⟨new, hn, rfl⟩ := Router.finish_eq_ok.1 hr'
    have htarget := (hf.up hd).2
    rw [Router.target, hn, Option.getD_some] at htarget
    rw [htarget]
  have hnil : coll.transfers = [] := h.transfers_nil hr (by simp [hs])
  have hmem : ∀ q, r'.old.ring.contains q = true ↔ q ∈ r.shards := fun q => by
    rw [hold, Ring.contains_add, hf.mem_shards_up hd]
  refine h.rest hr (.finish hr') rfl hnil (fun q => (hmem q).1) ⟨o.shard, (hmem _).2 hf.shard_mem⟩
    (fun q p hq => ?_) (h.settled_free hr hf)
  rw [Cluster.settled_isSome] at hq
  exact ⟨hq, (hmem q).2⟩

theorem finishedDown (h : Fit coll (some o) l) (hf : r.Follows o) (hr : coll.router o.key = .ok r)
    (hs : o.stage = .awaitingFinish) (hr' : r.finish = .ok r') (hd : o.direction = .down) :
    Fit (coll.setRouter o.key r') none ((l.settled r.shards).without [o.shard]) := by
  obtain ⟨hin, hsize, htarget⟩ := hf.down hd
  have hold : r'.old.ring = r.old.ring.remove o.shard := by
    obtain ⟨new, hn, rfl⟩ := Router.finish_eq_ok.1 hr'
    rw [Router.target, hn, Option.getD_some] at htarget
    rw [htarget]
  have hnil : coll.transfers = [] := h.transfers_nil hr (by simp [hs])
  have hmem : ∀ q, r'.old.ring.contains q = true ↔ q ≠ o.shard ∧ q ∈ r.shards := fun q => by
    rw [hold, Ring.contains_remove, hf.mem_shards_down hd]
  have hne : ∃ q, r'.old.ring.contains q = true := by
    obtain ⟨q, hq, hne⟩ := exists_other_key (SortedSet.mem_toList.2 hin) hsize
    exact ⟨q, (hmem q).2 ⟨hne, (hf.mem_shards_down hd).2 (SortedSet.mem_toList.1 hq)⟩⟩
  have hwithout : ∀ q p s, (l.settled r.shards).without [o.shard] q p = some s →
      q ≠ o.shard ∧ l.settled r.shards q p = some s := by
    intro q p s hq
    by_cases he : q = o.shard
    · simp [Layout.without, he] at hq
    · exact ⟨he, by simpa [Layout.without, he] using hq⟩
  refine h.rest hr (.finish hr') rfl hnil (fun q hq => ((hmem q).1 hq).2) hne (fun q p hq => ?_)
    fun q p hq => ?_
  · obtain ⟨s, hq⟩ := Option.isSome_iff_exists.1 hq
    obtain ⟨he, hq⟩ := hwithout q p s hq
    exact ⟨by rw [← Cluster.settled_isSome, hq]; rfl, fun hm => (hmem q).2 ⟨he, hm⟩⟩
  · exact h.settled_free hr hf q p (hwithout q p _ hq).2

end Fit
end ShardCluster
