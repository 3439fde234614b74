import ShardCluster.Proofs.Cluster.ReadyChange
/-! The last readable replica of a shard. No entry takes it away, unless a state is set by hand, a peer
is removed by force, or just this replica is dropped: that is refused only where no other replica is
left, readable or not. -/
namespace ShardCluster
open SortedMap

namespace Face
variable {F F' : Face} {coll coll' : Collection} {op op' : Option Operation} {o : Operation}
  {l l' : Layout} {key : Option ShardKey} {r r' : Router} {q : ShardId}

/-- The shard is on a ring of some group. -/
def OnRing (F : Face) (q : ShardId) : Prop := ∃ key r, F.Group key r ∧ q ∈ r.shards

/-- Some replica of the shard can be read. -/
def Read (F : Face) (q : ShardId) : Prop := ∃ p, F.look.Readable q p

/-- The shard can be read while it is on a ring. -/
def Covered (F : Face) (q : ShardId) : Prop := F.OnRing q → F.Read q

theorem onRing_some :
    OnRing ⟨some coll, op, l⟩ q ↔ ∃ key r, coll.groups.get? key = some r ∧ q ∈ r.shards := by
  simp only [OnRing, group_some]

theorem not_onRing_none : ¬OnRing ⟨none, op, l⟩ q := by
  simp [OnRing]

/-- A group with new rings holds the shard, or another group does as before. -/
theorem OnRing.of_insert (hg : coll'.groups = coll.groups.insert key r')
    (h : OnRing ⟨some coll', op', l'⟩ q) : q ∈ r'.shards ∨
      ∃ key' x, key' ≠ key ∧ coll.groups.get? key' = some x ∧ q ∈ x.shards := by
  obtain ⟨key', x, hx, hq⟩ := onRing_some.1 h
  rw [hg, get?_insert] at hx
  split at hx
  · exact .inl (Option.some.inj hx ▸ hq)
  · rename_i hk
    exact .inr ⟨key', x, hk, hx, hq⟩

namespace Covered

theorem step (h : F.Covered q) (hon : F'.OnRing q → F.OnRing q ∨ F'.Read q)
    (hread : F'.OnRing q → ∀ p, F.look.Readable q p → F'.look.Readable q p) : F'.Covered q := by
  intro hq
  obtain hbefore | hafter := hon hq
  · obtain ⟨p, hp⟩ := h hbefore
    exact ⟨p, hread hq p hp⟩
  · exact hafter

theorem relook (h : Covered ⟨some coll, op, l⟩ q) (hg : coll'.groups = coll.groups)
    (hl : ∀ p, l.Readable q p → l'.Readable q p) : Covered ⟨some coll', op', l'⟩ q :=
  h.step (fun hq => .inl (onRing_some.2 (hg ▸ onRing_some.1 hq))) fun _ => hl

/-- A group gets new rings, and no replica that was readable goes. -/
theorem kept (h : Covered ⟨some coll, op, l⟩ q) (hr : coll.groups.get? key = some r)
    (hg : coll'.groups = coll.groups.insert key r') (hl : ∀ p, l.Readable q p → l'.Readable q p)
    (hown : q ∈ r'.shards → q ∈ r.shards ∨ ∃ p, l'.Readable q p) :
    Covered ⟨some coll', op', l'⟩ q := by
  refine h.step (fun hq => ?_) fun _ => hl
  obtain hq | ⟨key', x, -, hx, hq⟩ := hq.of_insert hg
  · exact (hown hq).imp (fun hq => onRing_some.2 ⟨key, r, hr, hq⟩) id
  · exact .inl (onRing_some.2 ⟨key', x, hx, hq⟩)

/-- The shard of the operation goes with its replicas, and no group has it any more. -/
theorem withoutShard (h : Covered ⟨some coll, some o, l⟩ q) (hf : Fits ⟨some coll, some o, l⟩)
    (hr : coll.groups.get? o.key = some r) (hin : o.shard ∈ r.shards)
    (hg : coll'.groups = coll.groups.insert o.key r') (hl : ∀ p, l.Readable q p → l'.Readable q p)
    (hown : q ∈ r'.shards → q ∈ r.shards ∧ q ≠ o.shard) :
    Covered ⟨some coll', none, l'.without [o.shard]⟩ q := by
  refine h.step (fun hq => ?_) fun hq p hp => (hl p hp).without ?_
  · obtain hq | ⟨key', x, -, hx, hq⟩ := hq.of_insert hg
    · exact .inl (onRing_some.2 ⟨o.key, r, hr, (hown hq).1⟩)
    · exact .inl (onRing_some.2 ⟨key', x, hx, hq⟩)
  · rw [List.mem_singleton]
    obtain hq | ⟨key', x, hk, hx, hq⟩ := hq.of_insert hg
    · exact (hown hq).2
    · exact fun he => hk ((hf.fit coll rfl).parted.apart hx hr hq (he ▸ hin))

theorem rollsBack {w : Wake} (h : F.Covered q) (hf : F.Fits) (hb : RollsBack F w F') : F'.Covered q := by
  cases hb with
  | @up coll o l r hr hd =>
    have hfollows := hf.agrees.follows hr
    refine h.withoutShard hf (Collection.router_eq_ok.1 hr).2 hfollows.shard_mem rfl (fun p hp => hp)
      fun hq => ?_
    have hold : r.old.ring.contains q = true := (Router.Idle.abort r).mem_shards.1 hq
    refine ⟨Router.mem_shards.2 (.inl hold), fun he => ?_⟩
    rw [he, (hfollows.up hd).1] at hold
    cases hold
  | @down coll o l r hr hd =>
    refine h.kept (Collection.router_eq_ok.1 hr).2 rfl (fun p hp => hp.settled _) fun hq => ?_
    exact .inl (Router.mem_shards.2 (.inl ((Router.Idle.abort r).mem_shards.1 hq)))

theorem founded {placement : Placement} {n : Nat} (hh : placement.Hosted)
    (hq : q ∈ (Router.single (.ofShards n placement.keys)).shards) :
    ∃ p, (l.placed placement).Readable q p :=
  placed_readable hh (Ring.contains_ofShards.1 ((Router.Idle.single _).mem_shards.1 hq))

theorem found {config : CollectionConfig} {placement : Placement} {n : Nat} (hh : placement.Hosted) :
    Covered ⟨some { config, groups := .insert .empty none (.single (.ofShards n placement.keys)) },
      none, Layout.none.placed placement⟩ q := by
  intro hq
  obtain ⟨key, x, hx, hq⟩ := onRing_some.1 hq
  rw [get?_insert] at hx
  split at hx
  · exact founded hh (Option.some.inj hx ▸ hq)
  · cases hx

theorem keyAdded (h : Covered ⟨some coll, op, l⟩ q) {k : ShardKey} {placement : Placement} {n : Nat}
    (hh : placement.Hosted) :
    Covered ⟨some (coll.setRouter (some k) (.single (.ofShards n placement.keys))), op, l.placed placement⟩
      q := by
  refine h.step (fun hq => ?_) fun _ p hp => hp.placed placement
  have hg : (coll.setRouter (some k) (.single (.ofShards n placement.keys))).groups =
      coll.groups.insert (some k) (.single (.ofShards n placement.keys)) := rfl
  obtain hq | ⟨key', x, -, hx, hq⟩ := hq.of_insert hg
  · exact .inr (founded hh hq)
  · exact .inl (onRing_some.2 ⟨key', x, hx, hq⟩)

theorem keyDropped (h : Covered ⟨some coll, op, l⟩ q) (hf : Fits ⟨some coll, op, l⟩)
    (hr : coll.groups.get? key = some r) {transfers : List Transfer} :
    Covered ⟨some { coll with groups := coll.groups.erase key, transfers }, op, l.without r.shards⟩ q := by
  have hother : OnRing ⟨some { coll with groups := coll.groups.erase key, transfers }, op,
      l.without r.shards⟩ q → ∃ key' x, key' ≠ key ∧ coll.groups.get? key' = some x ∧ q ∈ x.shards := by
    intro hq
    obtain ⟨key', x, hx, hq⟩ := onRing_some.1 hq
    obtain ⟨hk, hx⟩ := get?_erase_eq_some.1 hx
    exact ⟨key', x, hk, hx, hq⟩
  refine h.step (fun hq => ?_) fun hq p hp => hp.without fun hin => ?_
  · obtain ⟨key', x, -, hx, hq⟩ := hother hq
    exact .inl (onRing_some.2 ⟨key', x, hx, hq⟩)
  · obtain ⟨key', x, hk, hx, hq⟩ := hother hq
    exact hk ((hf.fit coll rfl).parted.apart hx hr hq hin)

theorem started {plan : Plan} (h : Covered ⟨some coll, none, l⟩ q) (hf : Fits ⟨some coll, none, l⟩)
    (hr : coll.groups.get? plan.operation.key = some r) (hr' : r.start plan.operation.change = .ok r')
    (hg : coll'.groups = coll.groups.insert plan.operation.key r') :
    Covered ⟨some coll', op', l.claimed plan.operation plan.transfers⟩ q := by
  refine h.kept hr hg (fun p hp => hp.claimed _ _) fun hq => ?_
  obtain hq | ⟨hd, rfl⟩ := Fit.mem_started (hf.agrees.rests hr) hr' hq
  · exact .inl hq
  · exact .inr ⟨plan.operation.peer, .resharding, by simp [Layout.claimed, hd, Layout.put], rfl⟩

/-- A commit moves reads or writes from one ring to the other. -/
theorem committed (h : Covered ⟨some coll, some o, l⟩ q) (hr : coll.groups.get? o.key = some r)
    (hold : r'.old = r.old) (hnew : r'.new = r.new) (stage : Stage) :
    Covered ⟨some (coll.setRouter o.key r'), some { o with stage }, l⟩ q := by
  refine h.kept hr rfl (fun p hp => hp) fun hq => .inl ?_
  rwa [Router.mem_shards, Router.target, hold, hnew, ← Router.target, ← Router.mem_shards] at hq

theorem finishedUp (h : Covered ⟨some coll, some o, l⟩ q) (hr : coll.groups.get? o.key = some r)
    (hr' : r.finish = .ok r') : Covered ⟨some (coll.setRouter o.key r'), none, l.settled r.shards⟩ q := by
  refine h.kept hr rfl (fun p hp => hp.settled _) fun hq => .inl ?_
  exact Router.mem_shards.2 (.inr ((Router.mem_shards_finish hr').1 hq))

theorem finishedDown (h : Covered ⟨some coll, some o, l⟩ q) (hf : Fits ⟨some coll, some o, l⟩)
    (hr : coll.router o.key = .ok r) (hr' : r.finish = .ok r') (hd : o.direction = .down) :
    Covered ⟨some (coll.setRouter o.key r'), none, (l.settled r.shards).without [o.shard]⟩ q := by
  have hfollows := hf.agrees.follows hr
  refine h.withoutShard hf (Collection.router_eq_ok.1 hr).2 hfollows.shard_mem rfl
    (fun p hp => hp.settled _) fun hq => ?_
  have htarget := (Router.mem_shards_finish hr').1 hq
  refine ⟨Router.mem_shards.2 (.inr htarget), ?_⟩
  rw [(hfollows.down hd).2.2, Ring.contains_remove] at htarget
  exact htarget.1

theorem replicated (h : Covered ⟨some coll, none, l⟩ q) {transfers : List Transfer} {q' : ShardId}
    {p : PeerId} (hd : l q' p = none) :
    Covered ⟨some { coll with transfers }, none, l.put q' p .partialCopy⟩ q := by
  refine h.relook rfl fun p' hp => hp.congr ?_
  have hne : ¬(q = q' ∧ p' = p) := fun he => by
    have hsome := hp.isSome
    rw [he.1, he.2, hd] at hsome
    cases hsome
  simp only [Layout.put, if_neg hne]

/-- A peer without replicas is not the source of a transfer either. -/
theorem evicted (h : Covered ⟨some coll, op, l⟩ q) (hf : Fits ⟨some coll, op, l⟩) {peer : PeerId}
    (hfree : ∀ q, l q peer = none) :
    Covered ⟨some (coll.take (·.key.involves peer)).1, op, l.evicted peer coll.transfers⟩ q := by
  refine h.relook rfl fun p hp => ?_
  obtain ⟨s, hl, hs⟩ := hp
  refine ⟨s, Layout.evicted_eq_some.2 ⟨fun hc => ?_, hl⟩, hs⟩
  obtain rfl | ⟨t, ht, rfl, -⟩ := hc
  · cases (hfree q).symm.trans hl
  · have hsource : l t.key.shard t.key.source = some .active := by
      cases op with
      | none => exact (hf.idle.2 t ht).source
      | some o =>
        obtain ⟨r, -, -, -, -, hfeeds, -⟩ := hf.live
        exact (hfeeds t ht).source
    cases (hfree _).symm.trans hsource

theorem change {name : String} {epoch : UInt64} {entry : Entry} {w : Wake} (h : F.Covered q)
    (hf : F.Fits) (hforce : ∀ peer, entry ≠ .removePeer peer true)
    (hset : ∀ q p s, entry ≠ .setReplicaState name q p s)
    (hdrop : ∀ q p, entry ≠ .dropReplica name q p) (hc : Change name epoch entry F w F') :
    F'.Covered q := by
  cases hc with
  | foundAuto hm hp hh => exact found hh
  | foundCustom hm => exact fun hq => by simp [onRing_some] at hq
  | deleted => exact fun hq => absurd hq not_onRing_none
  | keyAdded hm hk hp hn hh => exact h.keyAdded hh
  | keyDropped hr ho => exact h.keyDropped hf hr
  | started hn ht hr hr' hl => exact h.started hf (Collection.router_eq_ok.1 hr).2 hr' rfl
  | readCommitted hs hr hr' =>
    obtain ⟨hold, hnew⟩ := Router.commitRead_rings hr'
    exact h.committed (Collection.router_eq_ok.1 hr).2 hold hnew _
  | writeCommitted hs hr hr' =>
    obtain ⟨hold, hnew⟩ := Router.commitWrite_rings hr'
    exact h.committed (Collection.router_eq_ok.1 hr).2 hold hnew _
  | finishedUp hs hr hr' hd => exact h.finishedUp (Collection.router_eq_ok.1 hr).2 hr'
  | finishedDown hs hr hr' hd => exact h.finishedDown hf hr hr' hd
  | rolledBack hb => exact h.rollsBack hf hb
  | replicated hm hq hs hd hk => exact h.replicated hd
  | copied ht hs hm hd => exact h.relook rfl fun p hp => hp.put rfl
  | sliced ht hs hm hn hw => exact h.relook rfl fun p hp => hp
  | @discarded entry coll op l t he ht hm =>
    obtain rfl := (hf.fit coll rfl).operation_none hf.agrees ht hm
    refine h.relook rfl fun p hp => hp.congr ?_
    rw [Layout.cut, if_neg (not_readable_target hf ht hp)]
  | unclaimed ht hm => exact h
  | replicaDropped hu ho hl => exact absurd rfl (hdrop _ _)
  | stateSet hu hl ho hs => exact absurd rfl (hset _ _ _)
  | @evicted coll op l peer force ho hfree =>
    cases force with
    | true => exact absurd rfl (hforce peer)
    | false => exact h.evicted hf (hfree rfl)

theorem changes {name : String} {epoch : UInt64} {entry : Entry} {w : Wake} (h : F.Covered q)
    (hf : F.Fits) (hforce : ∀ peer, entry ≠ .removePeer peer true)
    (hset : ∀ q p s, entry ≠ .setReplicaState name q p s)
    (hdrop : ∀ q p, entry ≠ .dropReplica name q p) (hc : Changes name epoch entry F w F') :
    F'.Covered q := by
  cases hc with
  | none => exact h
  | one hc => exact h.change hf hforce hset hdrop hc
  | two hb hc => exact (h.rollsBack hf hb).change (hf.rollsBack hb) hforce hset hdrop hc

end Covered
end Face

namespace Cluster
open ReplicaTable
variable {c c' : Cluster} {e : Effects} {name : String} {q : ShardId}

/-- The entry drops the only readable replica of the shard. -/
def DropsLast (c : Cluster) (name : String) (q : ShardId) (entry : Entry) : Prop :=
  ∃ p, entry = .dropReplica name q p ∧ ∀ p', (c.face name).look.Readable q p' → p' = p

theorem dropReplica_redone (hs : c.Sound) {p : PeerId} (h : c.dropReplica name q p = .ok (c', e)) :
    ∃ coll, c.collections.get? name = some coll ∧
      Redone c c' name coll (c.operations.get? name) ((c.replicas.look name).cut q p) ∧
      ∃ other, other ≠ p ∧ (c.replicas.look name q other).isSome := by
  obtain ⟨-, l, table, old, hl, hlen, hrem, rfl, -⟩ := dropReplica_eq_ok.1 h
  obtain ⟨hold, hdraw⟩ := remove_redrawn hrem
  obtain ⟨coll, hc⟩ := hs.collection_of_look hold
  exact ⟨coll, hc, ⟨rfl, rfl, hdraw, get?_same hc, get?_same rfl⟩,
    exists_other hl (Option.isSome_iff_exists.2 ⟨_, hold⟩) hlen⟩

/-- A shard that can be read loses that with a replica just where no other one can be read. -/
theorem read_dropped (hs : c.Sound) {name' : String} {q' : ShardId} {p : PeerId}
    (h : c.dropReplica name' q' p = .ok (c', e)) (hread : (c.face name).Read q) :
    (c'.face name).Read q ↔ ¬c.DropsLast name q (.dropReplica name' q' p) := by
  obtain ⟨coll, hc, hd, -⟩ := dropReplica_redone hs h
  by_cases hsame : name = name' ∧ q = q'
  · obtain ⟨rfl, rfl⟩ := hsame
    constructor
    · rintro ⟨x, s, hx, hr⟩ ⟨p', he, hall⟩
      obtain ⟨-, -, rfl⟩ := Entry.dropReplica.inj he
      rw [hd.face] at hx
      obtain ⟨hne, hx⟩ := Layout.cut_eq_some.1 hx
      exact hne ⟨rfl, hall x ⟨s, hx, hr⟩⟩
    · intro hnot
      obtain ⟨x, hx, hne⟩ : ∃ x, (c.face name).look.Readable q x ∧ x ≠ p := by
        by_contra hnone
        refine hnot ⟨p, rfl, fun x hx => ?_⟩
        by_contra hne
        exact hnone ⟨x, hx, hne⟩
      refine ⟨x, ?_⟩
      rw [hd.face]
      exact hx.congr (if_neg fun he => hne he.2)
  · refine iff_of_true ?_ fun ⟨p', he, _⟩ => hsame ?_
    · obtain ⟨x, hx⟩ := hread
      refine ⟨x, hx.congr ?_⟩
      by_cases hn : name = name'
      · subst hn
        rw [hd.face]
        exact if_neg fun he => hsame ⟨rfl, he.1⟩
      · rw [hd.face_of_ne hn]
    · obtain ⟨rfl, rfl, -⟩ := Entry.dropReplica.inj he
      exact ⟨rfl, rfl⟩

/-- An accepted entry that neither sets a state nor removes a peer by force takes the last readable
replica of a shard that stays on a ring in one case: it drops just this one, while others are left that
cannot be read. -/
theorem read_of_reached (h : Reached Planned c) {entry : Entry} (hx : c.apply entry = .ok (c', e))
    (hforce : ∀ peer, entry ≠ .removePeer peer true)
    (hset : ∀ name q p s, entry ≠ .setReplicaState name q p s) (hread : (c.face name).Read q)
    (hon : (c'.face name).OnRing q) : ((c'.face name).Read q ↔ ¬c.DropsLast name q entry) ∧
      (c.DropsLast name q entry → ∃ p s, c.replicas.state name q p = .ok s ∧ s.readable = false) := by
  by_cases hdrop : ∃ name' q' p, entry = .dropReplica name' q' p
  · obtain ⟨name', q', p, rfl⟩ := hdrop
    refine ⟨read_dropped h.sound hx hread, fun hlast => ?_⟩
    obtain ⟨p', he, hall⟩ := hlast
    obtain ⟨rfl, rfl, rfl⟩ := Entry.dropReplica.inj he
    obtain ⟨-, -, -, other, hne, hother⟩ := dropReplica_redone h.sound hx
    obtain ⟨s, hs⟩ := Option.isSome_iff_exists.1 hother
    refine ⟨other, s, state_eq_ok.2 hs, ?_⟩
    cases hr : s.readable with
    | false => rfl
    | true => exact absurd (hall other ⟨s, hs, hr⟩) hne
  · have hnot : ¬c.DropsLast name q entry := fun ⟨p, he, _⟩ => hdrop ⟨name, q, p, he⟩
    refine ⟨iff_of_true ?_ hnot, fun hlast => absurd hlast hnot⟩
    have hcovered : (c.face name).Covered q := fun _ => hread
    exact hcovered.changes (h.fits name) hforce (hset name) (fun q p he => hdrop ⟨name, q, p, he⟩)
      ((apply_step h.sound hx).changes name) hon

theorem onRing_of_router {key : Option ShardKey}
    (h : (c.router name key).toOption.map (·.shards.contains q) = some true) :
    (c.face name).OnRing q := by
  obtain ⟨r, hr, hin⟩ := toOption_map_eq_some.1 h
  obtain ⟨coll, hc, hr⟩ := router_eq_ok.1 hr
  exact ⟨key, r, ⟨coll, hc, (Collection.router_eq_ok.1 hr).2⟩, by simpa using hin⟩

/-- One of the two replicas of a shard is dead, and the other one is dropped. -/
def forsaking : Except Error (Cluster × Cluster × Effects) := do
  let c ← replay 2 1 [.addPeer 1, .addPeer 2,
    .createCollection "points" { replicationFactor := 2 } (.ofList [(0, [1, 2])]),
    .setReplicaState "points" 0 2 .dead]
  return (c, ← c.apply (.dropReplica "points" 0 1))

theorem forsaking_ok : ∃ c c' e, Reached Planned c ∧ c.apply (.dropReplica "points" 0 1) = .ok (c', e) ∧
    (c.face "points").OnRing 0 ∧ (c.face "points").Read 0 ∧ (c'.face "points").OnRing 0 ∧
    ¬(c'.face "points").Read 0 := by
  have hrun : forsaking.toOption.map (fun x => decide (
      (x.1.router "points" none).toOption.map (·.shards.contains 0) = some true ∧
      (x.1.replicas.state "points" 0 1).toOption = some .active ∧
      (x.2.1.router "points" none).toOption.map (·.shards.contains 0) = some true ∧
      (x.2.1.replicas.shardReplicas "points" 0).toOption = some [⟨0, 2, .dead⟩])) = some true := by
    decide +kernel
  obtain ⟨⟨_, c', e⟩, hok, hrun⟩ := toOption_map_eq_some.1 hrun
  obtain ⟨hgroup, hactive, hgroup', hleft⟩ := of_decide_eq_true hrun
  simp only [forsaking, bind_eq_ok, pure_eq_ok, Prod.mk.injEq] at hok
  obtain ⟨c, hfound, _, hx, rfl, rfl⟩ := hok
  have hreached : Reached Planned c := (Reached.new 2 1).applyAll (by simp [Planned]) hfound
  refine ⟨c, c', e, hreached, hx, onRing_of_router hgroup, ?_, onRing_of_router hgroup', ?_⟩
  · exact ⟨1, .active, state_eq_ok.1 (toOption_eq_some.1 hactive), rfl⟩
  · rintro ⟨p, s, hs, hread⟩
    have hmem := (shardReplicas_ok (toOption_eq_some.1 hleft) (r := ⟨0, p, s⟩)).2 ⟨rfl, hs⟩
    obtain ⟨-, -, rfl⟩ := Replica.mk.inj (List.mem_singleton.1 hmem)
    cases hread

/-- The replica that is dropped was the last one that could be read. -/
theorem read_forsaking : ∃ c c' e, Reached Planned c ∧
    c.apply (.dropReplica "points" 0 1) = .ok (c', e) ∧ (c.face "points").Read 0 ∧
    (c'.face "points").OnRing 0 ∧ c.DropsLast "points" 0 (.dropReplica "points" 0 1) := by
  obtain ⟨c, c', e, hreached, hx, -, hread, hon, hnot⟩ := forsaking_ok
  obtain ⟨hiff, -⟩ := read_of_reached hreached hx nofun nofun hread hon
  exact ⟨c, c', e, hreached, hx, hread, hon, not_not.1 fun h => hnot (hiff.2 h)⟩

/-- The replicas of a shard are counted before one of them is dropped, not those that can be read. -/
theorem unread_forsaking : ¬∀ c c' entry e name q, Reached Planned c → c.apply entry = .ok (c', e) →
    (∀ peer, entry ≠ .removePeer peer true) → (∀ name q p s, entry ≠ .setReplicaState name q p s) →
    (c.face name).OnRing q → (c.face name).Read q → (c'.face name).OnRing q → (c'.face name).Read q := by
  intro hall
  obtain ⟨c, c', e, hreached, hx, hbefore, hread, hon, hnot⟩ := forsaking_ok
  exact hnot (hall c c' _ e "points" 0 hreached hx nofun nofun hbefore hread hon)

end Cluster
end ShardCluster
