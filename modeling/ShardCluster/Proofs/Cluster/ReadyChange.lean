import ShardCluster.Proofs.Cluster.Ready
/-! Every change keeps the replicas that reads rely on, where no state is set by hand. It takes the
last one of a shard only with a peer that is removed by force. -/
namespace ShardCluster
open SortedMap

namespace Layout
variable {l l' : Layout} {q q' : ShardId} {p p' : PeerId}

theorem Readable.isSome (h : l.Readable q p) : (l q p).isSome := by
  obtain ⟨s, hs, -⟩ := h
  simp [hs]

theorem Readable.congr (h : l.Readable q p) (hl : l' q p = l q p) : l'.Readable q p := by
  obtain ⟨s, hs, hr⟩ := h
  exact ⟨s, hl.trans hs, hr⟩

theorem Readable.settled (h : l.Readable q p) (shards : List ShardId) :
    (l.settled shards).Readable q p := by
  by_cases hc : l q p = some .resharding ∧ q ∈ shards
  · exact ⟨.active, by simp [Layout.settled, hc], rfl⟩
  · exact h.congr (by simp only [Layout.settled, if_neg hc])

theorem Readable.placed (h : l.Readable q p) (placement : Placement) :
    (l.placed placement).Readable q p := by
  by_cases hc : p ∈ (placement.get? q).getD []
  · exact ⟨.active, by simp only [Layout.placed, if_pos hc], rfl⟩
  · exact h.congr (by simp only [Layout.placed, if_neg hc])

theorem Readable.put (h : l.Readable q p) {s : ReplicaState} (hs : s.readable = true) :
    (l.put q' p' s).Readable q p := by
  by_cases hc : q = q' ∧ p = p'
  · exact ⟨s, by simp only [Layout.put, if_pos hc], hs⟩
  · exact h.congr (by simp only [Layout.put, if_neg hc])

theorem Readable.marked (h : l.Readable q p) (replicas : List (ShardId × PeerId)) :
    (l.marked replicas .resharding).Readable q p := by
  by_cases hc : (q, p) ∈ replicas
  · exact ⟨.resharding, by simp only [Layout.marked, if_pos hc], rfl⟩
  · exact h.congr (by simp only [Layout.marked, if_neg hc])

/-- An operation that starts takes no replica away from reads. -/
theorem Readable.claimed (h : l.Readable q p) (op : Operation) (transfers : List Transfer) :
    (l.claimed op transfers).Readable q p := by
  unfold Layout.claimed
  split
  · exact h.put rfl
  · exact h.marked _

theorem Readable.without (h : l.Readable q p) {shards : List ShardId} (hq : q ∉ shards) :
    (l.without shards).Readable q p :=
  h.congr (by simp only [Layout.without, if_neg hq])

theorem Readable.ne_partial (h : l.Readable q p) : l q p ≠ some .partialCopy := by
  obtain ⟨s, hs, hr⟩ := h
  intro hp
  obtain rfl := Option.some.inj (hs.symm.trans hp)
  cases hr

theorem claimed_cases {op : Operation} {transfers : List Transfer} {s : ReplicaState}
    (h : l.claimed op transfers q p = some s) : l q p = some s ∨ s = .resharding := by
  cases hd : op.direction with
  | up =>
    simp only [Layout.claimed, hd] at h
    obtain ⟨-, -, hs⟩ | ⟨-, hl⟩ := put_cases h
    · exact .inr hs
    · exact .inl hl
  | down =>
    simp only [Layout.claimed, hd, Layout.marked] at h
    split at h
    · exact .inr (Option.some.inj h).symm
    · exact .inl h

end Layout

namespace Face
variable {coll : Collection} {op : Option Operation} {o : Operation} {l : Layout}
  {key : Option ShardKey} {r r' : Router} {t : Transfer}

/-- A placement gives each of its shards an active replica. -/
theorem placed_readable {placement : Placement} (hh : placement.Hosted) {q : ShardId}
    (hq : q ∈ placement.keys) : ∃ p, (l.placed placement).Readable q p := by
  obtain ⟨hosts, hx⟩ := mem_keys.1 hq
  obtain ⟨p, hp⟩ := List.exists_mem_of_ne_nil _ (hh q hosts hx)
  exact ⟨p, .active, by simp [Layout.placed, hx, hp], rfl⟩

/-- The replica that a copy fills is not read. -/
theorem not_readable_target (hf : Fits ⟨some coll, none, l⟩) (ht : t ∈ coll.transfers) {q : ShardId}
    {p : PeerId} (hl : l.Readable q p) : ¬(q = t.key.toShard ∧ p = t.key.target) := by
  intro he
  refine hl.ne_partial ?_
  rw [he.1, he.2]
  exact (hf.idle.2 t ht).target

namespace Tended

theorem found {config : CollectionConfig} {placement : Placement} {n : Nat}
    (he : (Router.single (.ofShards n placement.keys)).Even) :
    Tended ⟨some { config, groups := .insert .empty none (.single (.ofShards n placement.keys)) },
      none, Layout.none.placed placement⟩ where
  alive q p hd := by
    obtain hl | ⟨hs, -⟩ := Layout.placed_cases hd
    · cases hl
    · cases hs
  fed q p hx := by
    obtain hl | ⟨hs, -⟩ := Layout.placed_cases hx
    · cases hl
    · cases hs
  staying _ _ ho := by cases ho
  even key x hx := by
    have hx : (SortedMap.insert .empty _ _).get? key = some x := group_some.1 hx
    rw [get?_insert] at hx
    split at hx
    · exact Option.some.inj hx ▸ he
    · cases hx

theorem keyAdded (h : Tended ⟨some coll, op, l⟩) (hf : Fits ⟨some coll, op, l⟩) {k : ShardKey}
    {placement : Placement} {n : Nat} (hk : coll.groups.get? (some k) = none)
    (hn : ∀ q ∈ placement.keys, coll.shardSet.contains q = false)
    (he : (Router.single (.ofShards n placement.keys)).Even) :
    Tended ⟨some (coll.setRouter (some k) (.single (.ofShards n placement.keys))), op,
      l.placed placement⟩ where
  alive q p hd := by
    obtain hl | ⟨hs, -⟩ := Layout.placed_cases hd
    · exact h.alive q p hl
    · cases hs
  fed q p hx := by
    obtain hl | ⟨hs, -⟩ := Layout.placed_cases hx
    · exact h.fed q p hl
    · cases hs
  staying o x ho hx hd q p hq hne hsome := by
    obtain rfl : op = some o := ho
    obtain ⟨r, -, hr, -⟩ := hf.live
    have hkey : o.key ≠ some k := fun hc => by
      rw [hc, hk] at hr
      cases hr
    have hx : (coll.groups.insert _ _).get? o.key = some x := group_some.1 hx
    rw [get?_insert_of_ne hkey] at hx
    have hsame : l.placed placement q p = l q p :=
      Layout.placed_of_old hn (Fit.shardSet_of_group hx (Router.mem_shards.2 (.inl hq))) p
    have hsome : (l q p).isSome := hsame ▸ hsome
    exact hsame.trans (h.staying o x rfl (group_some.2 hx) hd q p hq hne hsome)
  even key x hx := by
    have hx : (coll.groups.insert _ _).get? key = some x := group_some.1 hx
    rw [get?_insert] at hx
    split at hx
    · exact Option.some.inj hx ▸ he
    · exact h.even key x (group_some.2 hx)

theorem keyDropped (h : Tended ⟨some coll, op, l⟩) (hf : Fits ⟨some coll, op, l⟩)
    (ho : ∀ o, op = some o → o.key ≠ key) :
    Tended ⟨some { coll with
        groups := coll.groups.erase key
        transfers := coll.transfers.filter
          (fun t => !(r.shards.contains t.key.shard || r.shards.contains t.key.toShard)) }, op,
      l.without r.shards⟩ where
  alive q p hd := h.alive q p (Layout.without_eq_some.1 hd).2
  fed q p hx := by
    obtain ⟨hq, hl⟩ := Layout.without_eq_some.1 hx
    obtain ⟨t, ht, hd⟩ := h.fed q p hl
    have ht : t ∈ coll.transfers := ht
    refine ⟨t, List.mem_filter.2 ⟨ht, ?_⟩, hd⟩
    have hto : t.key.toShard = q := (Prod.mk.inj hd).1
    cases op with
    | none =>
      have hshard := ((hf.idle).2 t ht).shard
      simpa [hshard, hto] using hq
    | some o => exact absurd hl (h.partial_of_live hf)
  staying o x hop hx hd q p hq hne hsome := by
    have hx : (coll.groups.erase _).get? o.key = some x := group_some.1 hx
    rw [get?_erase_of_ne (ho o hop)] at hx
    obtain ⟨s, hs⟩ := Option.isSome_iff_exists.1 hsome
    obtain ⟨hin, hl⟩ := Layout.without_eq_some.1 hs
    have hsome : (l q p).isSome := by simp [hl]
    have hstay : l q p = some .resharding := h.staying o x hop (group_some.2 hx) hd q p hq hne hsome
    exact Layout.without_eq_some.2 ⟨hin, hstay⟩
  even key' x hx := by
    obtain ⟨-, hx⟩ := get?_erase_eq_some.1 (group_some.1 hx)
    exact h.even key' x (group_some.2 hx)

/-- Every replica is active where neither an operation nor a transfer fills it. -/
theorem active (h : Tended ⟨some coll, none, l⟩) (hf : Fits ⟨some coll, none, l⟩)
    (ht : coll.transfers = []) {q : ShardId} {p : PeerId} {s : ReplicaState} (hs : l q p = some s) :
    s = .active := by
  cases s with
  | active => rfl
  | dead => exact absurd hs (h.alive q p)
  | partialCopy =>
    obtain ⟨t, hin, -⟩ := h.fed q p hs
    have hin : t ∈ coll.transfers := hin
    simp [ht] at hin
  | resharding => exact absurd hs (hf.idle.1 q p)

theorem started {plan : Plan} (h : Tended ⟨some coll, none, l⟩) (hf : Fits ⟨some coll, none, l⟩)
    (ht : coll.transfers = []) (hr : coll.groups.get? plan.operation.key = some r)
    (hr' : r.start plan.operation.change = .ok r') (hp : plan.Fits coll l r) (he : r'.Even)
    (epoch : UInt64) :
    Tended ⟨some { coll.setRouter plan.operation.key r' with
        transfers := plan.transfers.map (fun t => { t with epoch }) },
      some { plan.operation with
        stage := if plan.transfers = [] then .awaitingReadCommit else .starting },
      l.claimed plan.operation plan.transfers⟩ := by
  have hfree : ∀ q p, l q p ≠ some .partialCopy := fun q p hx => by cases h.active hf ht hx
  have hi : r.Idle := hf.agrees.rests hr
  have hold : r'.old = r.old := Router.start_old hr'
  refine h.regroup rfl he (fun q p s hs => ?_) hfree fun o ho => ?_
  · exact (Layout.claimed_cases hs).imp id .inr
  · obtain rfl := Option.some.inj ho
    refine ⟨rfl, fun hd q p hq hne hsome => ?_⟩
    have hd : plan.operation.direction = .down := hd
    obtain ⟨s, hs⟩ := Option.isSome_iff_exists.1 hsome
    obtain hl | rfl := Layout.claimed_cases hs
    · -- every replica was active, so a transfer fills it
      obtain rfl := h.active hf ht hl
      obtain ⟨-, -, -, hall, -⟩ := hp.down hd
      obtain ⟨t, hin, hdest⟩ := hall q (hi.mem_shards.2 (hold ▸ hq)) hne p hl
      simp only [Layout.claimed, hd, Layout.marked, ← hdest, List.mem_map_of_mem hin, if_true]
    · exact hs

theorem committed (h : Tended ⟨some coll, some o, l⟩) (hf : Fits ⟨some coll, some o, l⟩)
    (hr : coll.groups.get? o.key = some r) (hold : r'.old = r.old) (hnew : r'.new = r.new)
    (stage : Stage) : Tended ⟨some (coll.setRouter o.key r'), some { o with stage }, l⟩ := by
  refine h.regroup rfl ((h.even _ r (group_some.2 hr)).congr hold hnew) (fun q p s hs => .inl hs)
    (fun q p => h.partial_of_live hf) fun o' ho => ?_
  obtain rfl := Option.some.inj ho
  refine ⟨rfl, fun hd q p hq hne hsome => ?_⟩
  exact h.staying o r rfl (group_some.2 hr) hd q p (hold ▸ hq) hne hsome

/-- The operation is over; what it was filling is active. -/
theorem ended (h : Tended ⟨some coll, some o, l⟩) (hf : Fits ⟨some coll, some o, l⟩)
    {coll' : Collection} {l' : Layout} (hg : coll'.groups = coll.groups.insert key r')
    (he : r'.Even) (hs : ∀ q p s, l' q p = some s → l q p = some s ∨ s = .active) :
    Tended ⟨some coll', none, l'⟩ :=
  h.regroup hg he (fun q p s hx => (hs q p s hx).imp id .inl) (fun _ _ => h.partial_of_live hf)
    nofun

theorem rollsBack {F F' : Face} {w : Wake} (h : F.Tended) (hf : F.Fits) (hb : RollsBack F w F') :
    F'.Tended := by
  cases hb with
  | @up coll o l r hr hd =>
    have hget := (Collection.router_eq_ok.1 hr).2
    exact h.ended hf rfl (h.even _ r (group_some.2 hget)).abort
      fun q p s hx => .inl (Layout.without_eq_some.1 hx).2
  | @down coll o l r hr hd =>
    have hget := (Collection.router_eq_ok.1 hr).2
    exact h.ended hf rfl (h.even _ r (group_some.2 hget)).abort
      fun q p s hx => Layout.settled_cases hx

theorem replicated (h : Tended ⟨some coll, none, l⟩) {transfers : List Transfer} {q : ShardId}
    {p : PeerId} (hin : ∀ t ∈ coll.transfers, t ∈ transfers)
    (hnew : ∃ t ∈ transfers, t.key.destination = (q, p)) :
    Tended ⟨some { coll with transfers }, none, l.put q p .partialCopy⟩ := by
  refine h.relook rfl nofun (fun q' p' s hs => ?_) fun q' p' hx => ?_
  · obtain ⟨-, -, rfl⟩ | ⟨-, hl⟩ := Layout.put_cases hs
    · exact .inr (.inr ⟨rfl, rfl⟩)
    · exact .inl hl
  · obtain ⟨rfl, rfl, -⟩ | ⟨-, hl⟩ := Layout.put_cases hx
    · exact hnew
    · obtain ⟨t, ht, hdest⟩ := h.fed q' p' hl
      exact ⟨t, hin t ht, hdest⟩

/-- A copy of a whole shard leaves the table: its replica is active, or gone. -/
theorem copy_removed (h : Tended ⟨some coll, none, l⟩) {l' : Layout}
    (hs : ∀ q p s, l' q p = some s →
      ¬(q = t.key.toShard ∧ p = t.key.target) ∧ l q p = some s ∨ s = .active) :
    Tended ⟨some { coll with transfers := coll.transfers.filter (fun t' => !(t'.key == t.key)) },
      none, l'⟩ := by
  refine h.relook rfl nofun (fun q p s hx => ?_) fun q p hx => ?_
  · obtain ⟨-, hl⟩ | rfl := hs q p s hx
    · exact .inl hl
    · exact .inr (.inl ⟨rfl, rfl⟩)
  · obtain ⟨hne, hx⟩ | he := hs q p _ hx
    · obtain ⟨t', ht', hdest⟩ := h.fed q p hx
      refine ⟨t', List.mem_filter.2 ⟨ht', ?_⟩, hdest⟩
      have hkey : t'.key ≠ t.key := fun he => by
        rw [he] at hdest
        exact hne ⟨(Prod.mk.inj hdest).1.symm, (Prod.mk.inj hdest).2.symm⟩
      simpa using hkey
    · cases he

theorem evicted (h : Tended ⟨some coll, op, l⟩) {peer : PeerId} :
    Tended ⟨some (coll.take (·.key.involves peer)).1, op, l.evicted peer coll.transfers⟩ := by
  refine h.relook rfl (fun o ho => ⟨o, ho, rfl, rfl, rfl⟩)
    (fun q p s hx => .inl (Layout.evicted_eq_some.1 hx).2) fun q p hx => ?_
  obtain ⟨hstay, hl⟩ := Layout.evicted_eq_some.1 hx
  obtain ⟨t, ht, hdest⟩ := h.fed q p hl
  have ht : t ∈ coll.transfers := ht
  refine ⟨t, List.mem_filter.2 ⟨ht, ?_⟩, hdest⟩
  have htarget : t.key.target ≠ peer := fun he =>
    hstay (.inl ((Prod.mk.inj hdest).2.symm.trans he))
  have hsource : t.key.source ≠ peer := fun he => hstay (.inr ⟨t, ht, he, hdest⟩)
  simpa [TransferKey.involves] using ⟨hsource, htarget⟩

end Tended

namespace Served

theorem found {config : CollectionConfig} {placement : Placement} {n : Nat}
    (hh : placement.Hosted) :
    Served ⟨some { config, groups := .insert .empty none (.single (.ofShards n placement.keys)) },
      none, Layout.none.placed placement⟩ := by
  intro key x hx q hq
  have hx : (SortedMap.insert .empty _ _).get? key = some x := group_some.1 hx
  rw [get?_insert] at hx
  split at hx
  · obtain rfl := Option.some.inj hx
    exact placed_readable hh (Ring.contains_ofShards.1 hq)
  · cases hx

theorem keyAdded (h : Served ⟨some coll, op, l⟩) {k : ShardKey} {placement : Placement} {n : Nat}
    (hh : placement.Hosted) :
    Served ⟨some (coll.setRouter (some k) (.single (.ofShards n placement.keys))), op,
      l.placed placement⟩ := by
  intro key x hx q hq
  have hx : (coll.groups.insert _ _).get? key = some x := group_some.1 hx
  rw [get?_insert] at hx
  split at hx
  · obtain rfl := Option.some.inj hx
    exact placed_readable hh (Ring.contains_ofShards.1 hq)
  · obtain ⟨p, hp⟩ := h key x (group_some.2 hx) q hq
    exact ⟨p, hp.placed placement⟩

theorem keyDropped (h : Served ⟨some coll, op, l⟩) (hf : Fits ⟨some coll, op, l⟩)
    (hr : coll.groups.get? key = some r) {transfers : List Transfer} :
    Served ⟨some { coll with groups := coll.groups.erase key, transfers }, op,
      l.without r.shards⟩ := by
  intro key' x hx q hq
  obtain ⟨hk, hx⟩ := get?_erase_eq_some.1 (group_some.1 hx)
  obtain ⟨p, hp⟩ := h key' x (group_some.2 hx) q hq
  refine ⟨p, hp.without fun hin => hk ?_⟩
  exact (hf.fit coll rfl).parted.apart hx hr (Router.mem_shards.2 (.inl hq)) hin

/-- A group gets new rings, and no replica that was readable goes. -/
theorem kept (h : Served ⟨some coll, op, l⟩) (hf : Fits ⟨some coll, op, l⟩) {coll' : Collection}
    {op' : Option Operation} {l' : Layout} (hr : coll.groups.get? key = some r)
    (hg : coll'.groups = coll.groups.insert key r') (hl : ∀ q p, l.Readable q p → l'.Readable q p)
    (hown : ∀ q, r'.old.ring.contains q = true → r.old.ring.contains q = true ∨
      ∃ p, l.Readable q p) : Served ⟨some coll', op', l'⟩ := by
  refine h.regroup (hf.fit coll rfl).parted hr hg (fun q hq => ?_) fun q p _ => hl q p
  obtain hq | ⟨p, hp⟩ := hown q hq
  · obtain ⟨p, hp⟩ := h key r (group_some.2 hr) q hq
    exact ⟨p, hl q p hp⟩
  · exact ⟨p, hl q p hp⟩

/-- The shard of the operation goes with its replicas. -/
theorem withoutShard (h : Served ⟨some coll, some o, l⟩) (hf : Fits ⟨some coll, some o, l⟩)
    {coll' : Collection} {l' : Layout} (hr : coll.groups.get? o.key = some r)
    (hg : coll'.groups = coll.groups.insert o.key r')
    (hl : ∀ q p, l.Readable q p → l'.Readable q p) (hin : o.shard ∈ r.shards)
    (hown : ∀ q, r'.old.ring.contains q = true → q ≠ o.shard ∧ r.old.ring.contains q = true) :
    Served ⟨some coll', none, l'.without [o.shard]⟩ := by
  refine h.regroup (hf.fit coll rfl).parted hr hg (fun q hq => ?_) fun q p hq hx => ?_
  · obtain ⟨hne, hq⟩ := hown q hq
    obtain ⟨p, hx⟩ := h _ r (group_some.2 hr) q hq
    exact ⟨p, (hl q p hx).without (by simpa using hne)⟩
  · refine (hl q p hx).without ?_
    have hne : q ≠ o.shard := fun he => hq (he ▸ hin)
    simpa using hne

theorem rollsBack {F F' : Face} {w : Wake} (h : F.Served) (hf : F.Fits) (hb : RollsBack F w F') :
    F'.Served := by
  cases hb with
  | @up coll o l r hr hd =>
    have hget := (Collection.router_eq_ok.1 hr).2
    have hfollows := hf.agrees.follows hr
    refine h.withoutShard hf hget rfl (fun q p hl => hl) hfollows.shard_mem fun q hq => ⟨?_, hq⟩
    intro hx
    have hq : r.old.ring.contains q = true := hq
    rw [hx, (hfollows.up hd).1] at hq
    cases hq
  | @down coll o l r hr hd =>
    exact h.kept hf (Collection.router_eq_ok.1 hr).2 rfl (fun q p hl => hl.settled _)
      fun q hq => .inl hq

theorem finishedUp (h : Served ⟨some coll, some o, l⟩) (hf : Fits ⟨some coll, some o, l⟩)
    (hr : coll.router o.key = .ok r) (hr' : r.finish = .ok r') (hd : o.direction = .up) :
    Served ⟨some (coll.setRouter o.key r'), none, l.settled r.shards⟩ := by
  have hget := (Collection.router_eq_ok.1 hr).2
  have hfollows := hf.agrees.follows hr
  obtain ⟨x, -, hx, -, hfill, -, -⟩ := hf.live
  obtain rfl := Option.some.inj (hget.symm.trans hx)
  refine h.kept hf hget rfl (fun q p hl => hl.settled _) fun q hq => ?_
  obtain ⟨new, hn, rfl⟩ := Router.finish_eq_ok.1 hr'
  have htarget : new.ring.contains q = true := hq
  have hmem : q ∈ r.shards := by
    rw [Router.mem_shards, Router.target, hn, Option.getD_some]
    exact .inr htarget
  obtain rfl | hold := (hfollows.mem_shards_up hd).1 hmem
  · exact .inr ⟨o.peer, .resharding, (hfill.up hd _ _).2 ⟨rfl, rfl⟩, rfl⟩
  · exact .inl hold

theorem finishedDown (h : Served ⟨some coll, some o, l⟩) (hf : Fits ⟨some coll, some o, l⟩)
    (hr : coll.router o.key = .ok r) (hr' : r.finish = .ok r') (hd : o.direction = .down) :
    Served ⟨some (coll.setRouter o.key r'), none, (l.settled r.shards).without [o.shard]⟩ := by
  have hfollows := hf.agrees.follows hr
  refine h.withoutShard hf (Collection.router_eq_ok.1 hr).2 rfl (fun q p hl => hl.settled _)
    hfollows.shard_mem fun q hq => ?_
  obtain ⟨new, hn, rfl⟩ := Router.finish_eq_ok.1 hr'
  obtain ⟨-, -, htarget⟩ := hfollows.down hd
  rw [Router.target, hn, Option.getD_some] at htarget
  have hq : new.ring.contains q = true := hq
  rwa [htarget, Ring.contains_remove] at hq

theorem replicated (h : Served ⟨some coll, none, l⟩) {transfers : List Transfer} {q : ShardId}
    {p : PeerId} (hd : l q p = none) :
    Served ⟨some { coll with transfers }, none, l.put q p .partialCopy⟩ := by
  refine h.relook rfl fun key r _ q' _ p' hx => ⟨p', hx.congr ?_⟩
  have hne : ¬(q' = q ∧ p' = p) := fun he => by
    have hsome := hx.isSome
    rw [he.1, he.2, hd] at hsome
    cases hsome
  simp only [Layout.put, if_neg hne]

theorem replicaDropped (h : Served ⟨some coll, op, l⟩) (ht : Tended ⟨some coll, op, l⟩)
    (hf : Fits ⟨some coll, op, l⟩) {q : ShardId} {p other : PeerId} (hu : l.Unused coll op q p)
    (ho : other ≠ p) (hl : (l q other).isSome) : Served ⟨some coll, op, l.cut q p⟩ := by
  have hcut : ∀ q' p', ¬(q' = q ∧ p' = p) → l.Readable q' p' → (l.cut q p).Readable q' p' :=
    fun q' p' hne hx => hx.congr (by simp only [Layout.cut, if_neg hne])
  refine h.relook rfl fun key r _ q' _ p' hx => ?_
  by_cases he : q' = q ∧ p' = p
  · obtain ⟨rfl, rfl⟩ := he
    -- another replica is there; if it is incomplete, what fills it can be read
    obtain hread | hpartial := ht.readable_or hl
    · exact ⟨other, hcut q' other (fun he => ho he.2) hread⟩
    · obtain ⟨t, ht', hdest⟩ := ht.fed q' other hpartial
      have ht' : t ∈ coll.transfers := ht'
      cases op with
      | some o => exact absurd hpartial (ht.partial_of_live hf)
      | none =>
        have hc := hf.idle.2 t ht'
        have hq : t.key.shard = q' := hc.shard.trans (Prod.mk.inj hdest).1
        have hne : t.key.source ≠ p' := fun he => (hu.transfers t ht').1 ⟨hq, he⟩
        refine ⟨t.key.source, hcut q' _ (fun he => hne he.2) ⟨.active, ?_, rfl⟩⟩
        rw [← hq]
        exact hc.source
  · exact ⟨p', hcut q' p' he hx⟩

theorem evicted (h : Served ⟨some coll, op, l⟩) (hf : Fits ⟨some coll, op, l⟩) {peer : PeerId}
    (ho : ∀ o, op = some o → o.peer ≠ peer ∧ (∀ q, l q peer ≠ some .resharding) ∧
      ∀ t ∈ coll.transfers, t.resharding = true → t.key.involves peer = false)
    (hs : Spares ⟨some coll, op, l⟩ peer) :
    Served ⟨some (coll.take (·.key.involves peer)).1, op, l.evicted peer coll.transfers⟩ := by
  -- what goes with a copy was not read
  have hcut : ∀ q p, p ≠ peer → l.Readable q p →
      (l.evicted peer coll.transfers).Readable q p := by
    intro q p hne hx
    obtain ⟨s, hl, hr⟩ := hx
    refine ⟨s, Layout.evicted_eq_some.2 ⟨fun hc => ?_, hl⟩, hr⟩
    obtain hc | ⟨t, ht, hsource, hdest⟩ := hc
    · exact hne hc
    · obtain ⟨hq, hp⟩ : t.key.toShard = q ∧ t.key.target = p := Prod.mk.inj hdest
      cases op with
      | none => exact not_readable_target hf ht ⟨s, hl, hr⟩ ⟨hq.symm, hp.symm⟩
      | some o =>
        obtain ⟨r, -, -, -, -, hfeeds, -⟩ := hf.live
        have hout := (ho o rfl).2.2 t ht (hfeeds t ht).slice
        simp [TransferKey.involves, hsource] at hout
  refine h.relook rfl fun key r hr q hq p hx => ?_
  by_cases hp : p = peer
  · obtain ⟨p', hne, hx'⟩ := hs key r (group_some.2 hr) q hq (hp ▸ hx)
    exact ⟨p', hcut q p' hne hx'⟩
  · exact ⟨p, hcut q p hp hx⟩

end Served

/-- What an entry must keep to, so that no replica is given up. -/
structure Orderly (F : Face) (name : String) (entry : Entry) : Prop where
  planned : F.Planned name entry
  states : ∀ q p s, entry ≠ .setReplicaState name q p s

/-- What an entry must keep to, so that reads go on. -/
structure Gentle (F : Face) (name : String) (entry : Entry) : Prop extends
    F.Orderly name entry where
  spares : ∀ peer, entry = .removePeer peer true → F.Spares peer

theorem Spares.rollsBack {F F' : Face} {w : Wake} {peer : PeerId} (h : F.Spares peer)
    (hf : F.Fits) (hb : RollsBack F w F') : F'.Spares peer := by
  -- the old rings are as they were, and so is what can be read of their shards
  have hcongr : ∀ {l l' : Layout} {coll coll' : Collection} {o : Operation} {r : Router},
      F = ⟨some coll, some o, l⟩ → F' = ⟨some coll', none, l'⟩ →
      coll.groups.get? o.key = some r → coll'.groups = coll.groups.insert o.key r.abort →
      (∀ key x, coll.groups.get? key = some x → ∀ q, x.old.ring.contains q = true →
        ∀ p, l'.Readable q p ↔ l.Readable q p) → F'.Spares peer := by
    intro l l' coll coll' o r hF hF' hr hg hl key x hx q hq hread
    subst hF hF'
    have hx : coll'.groups.get? key = some x := group_some.1 hx
    obtain ⟨y, hy, hold⟩ : ∃ y, coll.groups.get? key = some y ∧ x.old = y.old := by
      rw [hg, get?_insert] at hx
      split at hx
      · rename_i hk
        exact ⟨r, hk ▸ hr, by rw [← Option.some.inj hx]; rfl⟩
      · exact ⟨x, hx, rfl⟩
    have hq : y.old.ring.contains q = true := hold ▸ hq
    have hiff := hl key y hy q hq
    obtain ⟨p, hne, hp⟩ := h key y (group_some.2 hy) q hq ((hiff peer).1 hread)
    exact ⟨p, hne, (hiff p).2 hp⟩
  cases hb with
  | @up coll o l r hr hd =>
    have hget := (Collection.router_eq_ok.1 hr).2
    have hfollows := hf.agrees.follows hr
    refine hcongr rfl rfl hget rfl fun key x hx q hq p => ?_
    have hne : q ≠ o.shard := fun he => by
      have hk : key = o.key := (hf.fit coll rfl).parted.apart hx hget
        (Router.mem_shards.2 (.inl hq)) (he ▸ hfollows.shard_mem)
      subst hk
      obtain rfl := Option.some.inj (hget.symm.trans hx)
      rw [he, (hfollows.up hd).1] at hq
      cases hq
    have hsame : l.without [o.shard] q p = l q p := by simp [Layout.without, hne]
    exact ⟨fun hx => hx.congr hsame.symm, fun hx => hx.congr hsame⟩
  | @down coll o l r hr hd =>
    have hget := (Collection.router_eq_ok.1 hr).2
    refine hcongr rfl rfl hget rfl fun key x hx q hq p => ⟨fun hx => ?_, fun hx => hx.settled _⟩
    by_cases hc : l q p = some .resharding ∧ q ∈ r.shards
    · exact ⟨_, hc.1, rfl⟩
    · exact hx.congr (by simp only [Layout.settled, if_neg hc])

theorem Orderly.rollsBack {F F' : Face} {w : Wake} {name : String} {entry : Entry}
    (h : F.Orderly name entry) (hb : RollsBack F w F') : F'.Orderly name entry where
  planned plan he hn := by
    obtain ⟨ho, -⟩ := h.planned plan he hn
    obtain ⟨⟨op, hop⟩, -⟩ := hb.operation
    cases ho.symm.trans hop
  states := h.states

theorem Gentle.rollsBack {F F' : Face} {w : Wake} {name : String} {entry : Entry}
    (h : F.Gentle name entry) (hf : F.Fits) (hb : RollsBack F w F') : F'.Gentle name entry where
  toOrderly := h.toOrderly.rollsBack hb
  spares peer he := (h.spares peer he).rollsBack hf hb

/-- An unforced removal is of a peer without replicas. -/
theorem spares_of_bare {F : Face} {peer : PeerId} (h : ∀ q, F.look q peer = none) :
    F.Spares peer := by
  intro _ _ _ q _ hx
  have hsome := hx.isSome
  rw [h q] at hsome
  cases hsome

theorem Tended.change {name : String} {epoch : UInt64} {entry : Entry} {F F' : Face} {w : Wake}
    (h : F.Tended) (hf : F.Fits) (hg : F.Orderly name entry) (hc : Change name epoch entry F w F')
    (ha : F'.Apart) : F'.Tended := by
  cases hc with
  | @foundAuto config placement n hm hp hh =>
    exact .found (.single (ha none _ (group_some.2 (get?_insert_self _ _ _))))
  | foundCustom hm => exact ⟨nofun, nofun, (fun _ _ ho => by cases ho), nofun⟩
  | deleted => exact ⟨nofun, nofun, (fun _ _ ho => by cases ho), nofun⟩
  | @keyAdded coll op l key placement n hm hk hp hn hh =>
    refine h.keyAdded hf hk hn (.single (ha (some key) _ (group_some.2 ?_)))
    exact get?_insert_self _ _ _
  | keyDropped hr ho => exact h.keyDropped hf ho
  | @started coll l plan r r' hn ht hr hr' hl =>
    have hget := (Collection.router_eq_ok.1 hr).2
    obtain ⟨-, coll', x, hcoll', hx, hfits⟩ := hg.planned plan rfl hn
    obtain rfl := Option.some.inj hcoll'
    obtain rfl := Except.ok.inj (hr.symm.trans hx)
    have hi : r.Idle := hf.agrees.rests hget
    have ha' := ha plan.operation.key r' (group_some.2 (get?_insert_self _ _ _))
    exact h.started hf ht hget hr' hfits ((h.even _ r (group_some.2 hget)).start hi hr' ha') epoch
  | readCommitted hs hr hr' =>
    obtain ⟨hold, hnew⟩ := Router.commitRead_rings hr'
    exact h.committed hf (Collection.router_eq_ok.1 hr).2 hold hnew _
  | writeCommitted hs hr hr' =>
    obtain ⟨hold, hnew⟩ := Router.commitWrite_rings hr'
    exact h.committed hf (Collection.router_eq_ok.1 hr).2 hold hnew _
  | @finishedUp coll o l r r' hs hr hr' hd =>
    have hget := (Collection.router_eq_ok.1 hr).2
    exact h.ended hf rfl ((h.even _ r (group_some.2 hget)).finish hr')
      fun q p s hx => Layout.settled_cases hx
  | @finishedDown coll o l r r' hs hr hr' hd =>
    have hget := (Collection.router_eq_ok.1 hr).2
    exact h.ended hf rfl ((h.even _ r (group_some.2 hget)).finish hr')
      fun q p s hx => Layout.settled_cases (Layout.without_eq_some.1 hx).2
  | rolledBack hb => exact h.rollsBack hf hb
  | @replicated coll l t hm hq hs hd hk =>
    refine h.replicated (fun t' ht' => List.mem_append_left _ ht') ?_
    exact ⟨_, List.mem_append_right _ List.mem_cons_self, Prod.ext hq.symm rfl⟩
  | @copied coll op l t ht hs hm hd =>
    obtain rfl := (hf.fit coll rfl).operation_none hf.agrees ht hm
    rw [Transfer.eraseP_key (hf.fit coll rfl).keys]
    refine h.copy_removed fun q p s hx => ?_
    obtain ⟨-, -, rfl⟩ | hx := Layout.put_cases hx
    · exact .inr rfl
    · exact .inl hx
  | @sliced coll op l t transfers next starts ht hs hm hn hw =>
    cases op with
    | none =>
      rw [(hf.idle.2 t ht).whole] at hm
      cases hm
    | some o =>
      refine h.relook rfl (fun o' ho' => ?_) (fun q p s hx => .inl hx)
        fun q p hx => absurd hx (h.partial_of_live hf)
      obtain rfl : o.settled transfers = o' := Option.some.inj ho'
      rw [Operation.settled_eq]
      exact ⟨o, rfl, rfl, rfl, rfl⟩
  | @discarded entry coll op l t he ht hm =>
    obtain rfl := (hf.fit coll rfl).operation_none hf.agrees ht hm
    exact h.copy_removed fun q p s hx => .inl (Layout.cut_eq_some.1 hx)
  | unclaimed ht hm => exact h
  | replicaDropped hu ho hl =>
    exact h.relook rfl (fun o ho => ⟨o, ho, rfl, rfl, rfl⟩)
      (fun q p s hx => .inl (Layout.cut_eq_some.1 hx).2)
      fun q p hx => h.fed q p (Layout.cut_eq_some.1 hx).2
  | stateSet hu hl ho hs => exact absurd rfl (hg.states _ _ _)
  | evicted ho hfree => exact h.evicted

theorem Served.change {name : String} {epoch : UInt64} {entry : Entry} {F F' : Face} {w : Wake}
    (h : F.Served) (ht : F.Tended) (hf : F.Fits) (hg : F.Gentle name entry)
    (hc : Change name epoch entry F w F') : F'.Served := by
  cases hc with
  | foundAuto hm hp hh => exact .found hh
  | foundCustom hm => exact nofun
  | deleted => exact nofun
  | keyAdded hm hk hp hn hh => exact h.keyAdded hh
  | keyDropped hr ho => exact h.keyDropped hf hr
  | @started coll l plan r r' hn ht hr hr' hl =>
    have hold : r'.old = r.old := Router.start_old hr'
    exact h.kept hf (Collection.router_eq_ok.1 hr).2 rfl (fun q p hl => hl.claimed _ _)
      fun q hq => .inl (hold ▸ hq)
  | readCommitted hs hr hr' =>
    obtain ⟨hold, -⟩ := Router.commitRead_rings hr'
    exact h.kept hf (Collection.router_eq_ok.1 hr).2 rfl (fun q p hl => hl)
      fun q hq => .inl (hold ▸ hq)
  | writeCommitted hs hr hr' =>
    obtain ⟨hold, -⟩ := Router.commitWrite_rings hr'
    exact h.kept hf (Collection.router_eq_ok.1 hr).2 rfl (fun q p hl => hl)
      fun q hq => .inl (hold ▸ hq)
  | finishedUp hs hr hr' hd => exact h.finishedUp hf hr hr' hd
  | finishedDown hs hr hr' hd => exact h.finishedDown hf hr hr' hd
  | rolledBack hb => exact h.rollsBack hf hb
  | replicated hm hq hs hd hk => exact h.replicated hd
  | @copied coll op l t ht hs hm hd => exact h.relook rfl fun _ _ _ q _ p hx => ⟨p, hx.put rfl⟩
  | sliced ht hs hm hn hw => exact h.relook rfl fun _ _ _ q _ p hx => ⟨p, hx⟩
  | @discarded entry coll op l t he hin hm =>
    obtain rfl := (hf.fit coll rfl).operation_none hf.agrees hin hm
    refine h.relook rfl fun _ _ _ q _ p hx => ⟨p, hx.congr ?_⟩
    rw [Layout.cut, if_neg (not_readable_target hf hin hx)]
  | unclaimed ht hm => exact h
  | replicaDropped hu ho hl => exact h.replicaDropped ht hf hu ho hl
  | stateSet hu hl ho hs => exact absurd rfl (hg.states _ _ _)
  | @evicted coll op l peer force ho hfree =>
    refine h.evicted hf ho ?_
    cases force with
    | true => exact hg.spares peer rfl
    | false => exact spares_of_bare (hfree rfl)

/-- What an entry does to a collection takes no readable replica of a shard that is the last. -/
theorem Served.changes {name : String} {epoch : UInt64} {entry : Entry} {F F' : Face} {w : Wake}
    (h : F.Served) (ht : F.Tended) (hf : F.Fits) (hg : F.Gentle name entry)
    (hc : Changes name epoch entry F w F') : F'.Served := by
  cases hc with
  | none => exact h
  | one hc => exact h.change ht hf hg hc
  | two hb hc =>
    exact (h.rollsBack hf hb).change (ht.rollsBack hf hb) (hf.rollsBack hb) (hg.rollsBack hf hb) hc

end Face
end ShardCluster
