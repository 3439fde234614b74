import ShardCluster.Proofs.Node.Commits
/-! Where a read goes, and what it finds: the last payload that was accepted for the point. -/
namespace ShardCluster
open SortedMap

/-- While an operation is about a group, reads go to a shard that the group has. -/
theorem Router.Follows.reader {r : Router} {o : Operation} (hf : r.Follows o) (he : r.Even)
    (hne : ∃ q, r.old.ring.contains q = true) (id : PointId) :
    ∃ q, r.routeRead id = some q ∧ r.Serves id q ∧
      (q = o.shard ∧ o.direction = .up ∧ o.stage.readCommitted = true ∨
        q ≠ o.shard ∧ r.old.ring.contains q = true ∧ o.stage.readCommitted = true ∨
        r.routeOld id = some q ∧ o.stage.readCommitted = false) := by
  rw [hf.routeRead]
  obtain ⟨s, hs⟩ := hne
  cases hc : o.stage.readCommitted with
  | false =>
    obtain ⟨q, hq⟩ := he.routeOld hs id
    exact ⟨q, hq, .inl hq, .inr (.inr ⟨hq, rfl⟩)⟩
  | true =>
    obtain ⟨x, hx⟩ := hf.exists_target
    obtain ⟨q, hq⟩ := he.target.spread.route hx id
    have hnew : r.routeNew id = some q := hq
    refine ⟨q, hnew, .inr hnew, ?_⟩
    have hin := he.target.owned.route hq
    cases hd : o.direction with
    | up =>
      rw [(hf.up hd).2] at hin
      by_cases hqo : q = o.shard
      · exact .inl ⟨hqo, rfl, rfl⟩
      · exact .inr (.inl ⟨hqo, (Ring.contains_add.1 hin).resolve_left hqo, rfl⟩)
    | down =>
      rw [(hf.down hd).2.2] at hin
      obtain ⟨hqo, hin⟩ := Ring.contains_remove.1 hin
      exact .inr (.inl ⟨hqo, hin, rfl⟩)

namespace Face
variable {F : Face} {D : Holdings} {key : Option ShardKey} {r : Router} {id : PointId} {x : Bytes}

/-- Reads of a point go to a shard with a readable replica, and no transfer into a readable replica of
that shard has the point yet to bring. -/
def Reads (F : Face) (r : Router) (id : PointId) : Prop :=
  ∃ q, r.routeRead id = some q ∧ r.Serves id q ∧ (∃ p, F.look.Readable q p) ∧
    ∀ p, F.look.Readable q p → ∀ t ∈ F.transfers, t.key.destination = (q, p) →
      r.routeOld id ≠ some t.key.shard

/-- At rest a transfer is of a whole shard, or of another group. -/
theorem Ready.reads_rest (h : F.Ready) (hf : F.Fits) (hg : F.Group key r) (hi : r.Idle)
    (hother : ∀ o, F.operation = some o → o.key ≠ key) (id : PointId) : F.Reads r id := by
  have heven := h.even key r hg
  obtain ⟨s, hs⟩ := hf.exists_old hg
  obtain ⟨q, hq⟩ := heven.routeOld hs id
  have hread : r.routeRead id = some q := by rw [Router.routeRead, hi.read]; exact hq
  have hin := heven.old_contains hq
  refine ⟨q, hread, .inl hq, h.served key r hg q hin, fun p hp t ht hd => ?_⟩
  obtain ⟨hto, htarget⟩ : t.key.toShard = q ∧ t.key.target = p := Prod.mk.inj hd
  obtain ⟨coll, op, l⟩ := F
  cases coll with
  | none => cases ht
  | some coll =>
    cases op with
    | none =>
      have hl := (hf.idle.2 t ht).target
      obtain ⟨s, hs, hreads⟩ := hp
      rw [hto, htarget] at hl
      obtain rfl := Option.some.inj (hl.symm.trans hs)
      cases hreads
    | some o =>
      obtain ⟨r', -, hr', hfollows, -, hfeeds, -⟩ := hf.live
      have hmem := (hfeeds t ht).toShard_mem hfollows
      rw [hto] at hmem
      exact absurd (hf.apart (group_some.2 hr') hg hmem (Router.mem_shards.2 (.inl hin)))
        (hother o rfl)

/-- While reads go by the old ring no transfer goes into the shard that they go to. Later there is no
transfer at all. -/
theorem Ready.reads_live {o : Operation} (h : F.Ready) (hf : F.Fits) (hg : F.Group o.key r)
    (ho : F.operation = some o) (hfollows : r.Follows o) (id : PointId) : F.Reads r id := by
  have heven := h.even o.key r hg
  have hne := hf.exists_old hg
  obtain ⟨coll, op, l⟩ := F
  obtain rfl : op = some o := ho
  obtain ⟨coll, rfl, hr⟩ : ∃ coll', coll = some coll' ∧ coll'.groups.get? o.key = some r := hg
  obtain ⟨r', hrouter, hr', -, hfill, hfeeds, -⟩ := hf.live
  obtain rfl := Option.some.inj (hr'.symm.trans hr)
  obtain ⟨q, hread, hserves, hcase⟩ := hfollows.reader heven hne id
  refine ⟨q, hread, hserves, ?_⟩
  have hdone : o.stage.readCommitted = true → ∀ t, t ∉ coll.transfers := fun hc => by
    rw [(hf.fit coll rfl).transfers_nil hrouter fun hs => by rw [hs] at hc; cases hc]
    exact fun t => List.not_mem_nil
  obtain ⟨rfl, hd, hc⟩ | ⟨hqo, hin, hc⟩ | ⟨hold, hc⟩ := hcase
  · have hl := (hfill.up hd o.shard o.peer).2 ⟨rfl, rfl⟩
    exact ⟨⟨o.peer, _, hl, rfl⟩, fun p _ t ht => absurd ht (hdone hc t)⟩
  · exact ⟨h.served o.key r' (group_some.2 hr) q hin, fun p _ t ht => absurd ht (hdone hc t)⟩
  · refine ⟨h.served o.key r' (group_some.2 hr) q (heven.old_contains hold), fun p _ t ht hd hfrom => ?_⟩
    obtain ⟨hto, -⟩ : t.key.toShard = q ∧ t.key.target = p := Prod.mk.inj hd
    have hsame : t.key.shard = q := Option.some.inj (hfrom.symm.trans hold)
    cases hdir : o.direction with
    | up =>
      have hshard := (Prod.mk.inj ((hfeeds t ht).up hdir).1).1
      exact hfollows.routeOld_ne heven hdir hold (hto.symm.trans hshard)
    | down =>
      obtain ⟨hshard, -, hne, -⟩ := (hfeeds t ht).down hdir
      exact hne (hto.trans (hsame.symm.trans hshard))

theorem Ready.reads (h : F.Ready) (hf : F.Fits) (hg : F.Group key r) (id : PointId) :
    F.Reads r id := by
  obtain ⟨hi, hother⟩ | ⟨o, ho, rfl, hfollows⟩ := hf.phase hg
  · exact h.reads_rest hf hg hi hother id
  · exact h.reads_live hf hg ho hfollows id

/-- Every replica that a read may go to has the last accepted payload. -/
theorem Keeps.read (h : F.Keeps D) (hready : F.Ready) (hf : F.Fits) (hg : F.Group key r)
    (hx : D.written key id = some x) : ∃ q, r.routeRead id = some q ∧
      (∃ p, F.look.Readable q p) ∧ ∀ p, F.look.Readable q p → D.held q p id = some x := by
  obtain ⟨q, hread, hserves, hsome, hnone⟩ := hready.reads hf hg id
  refine ⟨q, hread, hsome, fun p hp => ?_⟩
  have hlook := hp
  obtain ⟨s, hs, -⟩ := hlook
  obtain hheld | ⟨t, ht, hd, hold, -⟩ := h.complete key r q p id x hg hserves
    (Option.isSome_iff_exists.2 ⟨s, hs⟩) hx
  · exact hheld
  · exact absurd hold (hnone p hp t ht hd)

end Face

namespace Node
variable {n : Node} {L : Ledger} {name : String} {key : Option ShardKey} {id : PointId} {x : Bytes}

theorem readFirst_ok {s : FaultyStore} {e : Error} {rs : List Replica} (hs : s.faults = [])
    (hne : rs ≠ []) (h : ∀ r ∈ rs, s.store.get (r.location name) id = some ⟨id, x⟩) :
    readFirst name id s e rs = (s, .ok (some ⟨id, x⟩)) := by
  cases rs with
  | nil => exact absurd rfl hne
  | cons r rest =>
    rw [readFirst, FaultyStore.get, FaultyStore.read_ok hs, h r List.mem_cons_self]

/-- The replicas that a read asks are the readable ones of the shard that reads go to. -/
theorem readers_ok {r : Router} {q : ShardId} (hr : n.cluster.router name key = .ok r)
    (hq : r.routeRead id = some q) (hp : ∃ p, (n.cluster.replicas.look name).Readable q p) :
    ∃ rs, n.readers name key id = .ok rs ∧ rs ≠ [] ∧
      ∀ x ∈ rs, x.shard = q ∧ (n.cluster.replicas.look name).Readable q x.peer := by
  obtain ⟨p, s, hl, hs⟩ := hp
  obtain ⟨all, hall⟩ := ReplicaTable.shardReplicas_of_look hl
  let parts := (all.filter (·.state.readable)).partition (·.peer == n.config.peer)
  have hreaders : n.readers name key id = .ok (parts.1 ++ parts.2) := by
    simp only [readers, hr, bind_eq_ok, Except.ok.injEq, exists_eq_left', hq, hall, pure_eq_ok, parts]
  have hmem : ∀ x, x ∈ parts.1 ++ parts.2 ↔ x ∈ all ∧ x.state.readable = true := fun x => by
    simp only [parts, List.partition_eq_filter_filter, List.mem_append, List.mem_filter,
      Function.comp_apply, Bool.not_eq_true']
    cases x.peer == n.config.peer <;> simp
  refine ⟨_, hreaders, ?_, fun x hx => ?_⟩
  · exact List.ne_nil_of_mem
      ((hmem ⟨q, p, s⟩).2 ⟨(ReplicaTable.shardReplicas_ok hall).2 ⟨rfl, hl⟩, hs⟩)
  · obtain ⟨hx, hreadable⟩ := (hmem x).1 hx
    obtain ⟨hshard, hlook⟩ := (ReplicaTable.shardReplicas_ok hall).1 hx
    exact ⟨hshard, x.state, hlook, hreadable⟩

/-- A point that was written is found, with the last accepted payload. -/
theorem Holds.get (h : n.Holds L) (hx : L name key id = some x) :
    (n.get name key id).2 = .ok (some ⟨id, x⟩) := by
  obtain ⟨coll, r, hcoll, hrouter⟩ := (h.keeps name).known key id x hx
  have hr : n.cluster.router name key = .ok r := Cluster.router_eq_ok.2 ⟨coll, hcoll, hrouter⟩
  have hg : (n.cluster.face name).Group key r := ⟨coll, hcoll, (Collection.router_eq_ok.1 hrouter).2⟩
  obtain ⟨q, hq, hsome, hheld⟩ :=
    (h.keeps name).read (h.ready name) (h.reached.fits name) hg hx
  obtain ⟨rs, hreaders, hne, hrs⟩ := readers_ok hr hq hsome
  have hfound : ∀ y ∈ rs, n.plane.store.store.get (y.location name) id = some ⟨id, x⟩ := by
    intro y hy
    obtain ⟨hshard, hreadable⟩ := hrs y hy
    have hheld : (n.plane.store.store.replica ⟨name, y.peer, q⟩).get? id = some x :=
      hheld y.peer hreadable
    rw [Store.get, Replica.location, hshard, hheld]
    rfl
  simp only [Node.get, hreaders, readFirst_ok h.faultless hne hfound]

end Node
end ShardCluster
