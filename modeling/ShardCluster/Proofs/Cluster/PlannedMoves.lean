import ShardCluster.Proofs.Cluster.PlanStart
import ShardCluster.Proofs.Cluster.Receivers
import ShardCluster.Proofs.Cluster.Rings
/-! The points that a plan moves. Wherever the owner of a point changes, one transfer takes it from the
old owner to each replica that needs it, and no other transfer takes it along. -/
namespace ShardCluster
open SortedMap

/-- The transfer takes the point along, by the rings of a group on the way. -/
def Transfer.carries (t : Transfer) (r : Router) (id : PointId) : Bool :=
  (r.targetSlice t.key.toShard).selects id

theorem Transfer.carries_iff {t : Transfer} {r : Router} {id : PointId} :
    t.carries r id = true ↔ r.routeNew id = some t.key.toShard := by
  simp only [carries, Slice.selects, Router.targetSlice, beq_iff_eq]
  exact Iff.rfl

/-- What becomes of a point by a plan: `c` is the cluster that the plan is made for, and `r` has the
rings of the group after the start. -/
structure Plan.Moves (plan : Plan) (c : Cluster) (r : Router) (id : PointId) : Prop where
  up : plan.operation.direction = .up → ∀ a b, r.routeOld id = some a → r.routeNew id = some b →
    a ≠ b → ∃ t, plan.transfers.filter (fun t => t.key.shard == a && t.carries r id) = [t] ∧
      t.key.destination = (plan.operation.shard, plan.operation.peer) ∧
      c.replicas.state plan.operation.collection a t.key.source = .ok .active
  down : plan.operation.direction = .down → ∀ a b, r.routeOld id = some a → r.routeNew id = some b →
    a ≠ b → ∀ p, c.replicas.state plan.operation.collection b p = .ok .active →
      ∃ t, plan.transfers.filter (fun t => t.key.destination == (b, p) && t.carries r id) = [t] ∧
        t.key.shard = plan.operation.shard ∧
        c.replicas.state plan.operation.collection plan.operation.shard t.key.source = .ok .active
  stay : ∀ a, r.routeOld id = some a → r.routeNew id = some a →
    ∀ t ∈ plan.transfers, t.key.shard = a → t.carries r id = false

namespace Cluster
open ReplicaTable
variable {c c' : Cluster} {name : String} {plan : Plan} {coll : Collection} {r r' : Router}
  {request : ReshardingRequest} {id : PointId}

section
variable (b : Opens c name plan coll r) (ha : plan.Answers c request r) (hsite : r.Sited)
  (hr' : r.start plan.operation.change = .ok r')
include b hr'

theorem Opens.follows : r'.Follows { plan.operation with stage := .starting } :=
  b.rest.start hr' rfl

include hsite

/-- A point has an owner among the shards of the group. -/
theorem Opens.owner_mem {a : ShardId} (hold : r'.routeOld id = some a) : a ∈ r.shards := by
  rw [Router.routeOld, Router.start_old hr'] at hold
  exact b.rest.mem_shards.2 (hsite.old.owned.route hold)

include ha

/-- The shard that comes gets each point from its old owner. -/
theorem Opens.moves_up (hd : plan.operation.direction = .up) {a q : ShardId}
    (hold : r'.routeOld id = some a) (hnew : r'.routeNew id = some q) (hne : a ≠ q) :
    ∃ t, plan.transfers.filter (fun t => t.key.shard == a && t.carries r' id) = [t] ∧
      t.key.destination = (plan.operation.shard, plan.operation.peer) ∧
      c.replicas.state plan.operation.collection a t.key.source = .ok .active := by
  obtain ⟨-, hends, hall⟩ := b.fits.up hd
  have hq : q = plan.operation.shard := by
    obtain hx | hx := (b.follows hr').routeNew_up hd id
    · exact Option.some.inj (hnew.symm.trans hx)
    · exact absurd (Option.some.inj ((hx.trans hold).symm.trans hnew)) hne
  obtain ⟨t, ht, rfl⟩ := hall a (b.owner_mem hsite hr' hold)
  obtain ⟨hdest, -, hsource⟩ := hends t ht
  have hcarries : t.carries r' id = true := by
    rw [Transfer.carries_iff, hnew, hq]
    exact congrArg some (Prod.mk.inj hdest).1.symm
  -- no two transfers leave the same shard
  have hapart : (plan.transfers.map (·.key.shard)).Nodup := by
    rw [(ha.up hd).2]
    exact keys_nodup _
  refine ⟨t, filter_singleton hapart.of_map ht (by simp [hcarries]) fun t' ht' hx => ?_, hdest, ?_⟩
  · have hshard : t'.key.shard = t.key.shard := by
      simp only [Bool.and_eq_true, beq_iff_eq] at hx
      exact hx.1
    exact List.inj_on_of_nodup_map hapart ht' ht hshard
  · exact state_eq_ok.2 (b.name_eq ▸ hsource)

omit ha in
/-- The active replicas of a shard that stays get its points from the shard that goes, once each. -/
theorem Opens.moves_down (hd : plan.operation.direction = .down) {q : ShardId}
    (hnew : r'.routeNew id = some q) {p : PeerId}
    (hp : c.replicas.state plan.operation.collection q p = .ok .active) :
    ∃ t, plan.transfers.filter (fun t => t.key.destination == (q, p) && t.carries r' id) = [t] ∧
      t.key.shard = plan.operation.shard ∧
      c.replicas.state plan.operation.collection plan.operation.shard t.key.source = .ok .active := by
  obtain ⟨hleaving, hends, -, hall, -⟩ := b.fits.down hd
  have htarget := ((b.follows hr').down hd).2.2
  have hq : r'.old.ring.contains q = true ∧ q ≠ plan.operation.shard := by
    have hin : (r'.old.ring.remove plan.operation.shard).contains q = true := by
      have howned : (r'.old.ring.remove plan.operation.shard).Owned := by
        rw [Router.start_old hr']
        exact hsite.old.owned.remove _
      have hroute : (r'.old.ring.remove plan.operation.shard).route id = some q := by
        rwa [Router.routeNew, htarget] at hnew
      exact howned.route hroute
    exact (Ring.contains_remove.1 hin).symm
  have hmem : q ∈ r.shards := b.rest.mem_shards.2 (Router.start_old hr' ▸ hq.1)
  rw [b.name_eq, state_eq_ok] at hp
  obtain ⟨t, ht, hdest⟩ := hall q hmem hq.2 p hp
  obtain ⟨hshard, hsource, -⟩ := hends t ht
  have hcarries : t.carries r' id = true := by
    rw [Transfer.carries_iff, hnew]
    exact congrArg some (Prod.mk.inj hdest).1.symm
  refine ⟨t, filter_singleton b.fits.keys.of_map ht (by simp [hdest, hcarries]) fun t' ht' hx => ?_,
    hshard, ?_⟩
  · simp only [Bool.and_eq_true, beq_iff_eq] at hx
    obtain ⟨hshard', hsource', -⟩ := hends t' ht'
    obtain ⟨hto, htarget⟩ := Prod.mk.inj (hx.1.trans hdest.symm)
    refine List.inj_on_of_nodup_map b.fits.keys ht' ht ?_
    calc t'.key = ⟨t'.key.shard, t'.key.toShard, t'.key.source, t'.key.target⟩ := rfl
      _ = ⟨t.key.shard, t.key.toShard, t.key.source, t.key.target⟩ := by
        rw [hshard', hshard, hsource', hsource, hto, htarget]
      _ = t.key := rfl
  · rw [b.name_eq, state_eq_ok, hsource]
    exact hleaving

omit ha in
/-- A point that stays is not taken out of its shard. -/
theorem Opens.stays {a : ShardId} (hold : r'.routeOld id = some a) (hnew : r'.routeNew id = some a)
    {t : Transfer} (ht : t ∈ plan.transfers) (hshard : t.key.shard = a) : t.carries r' id = false := by
  have hmem := b.owner_mem hsite hr' hold
  rw [Bool.eq_false_iff, Ne, Transfer.carries_iff, hnew, Option.some.injEq]
  intro hto
  cases hd : plan.operation.direction with
  | up =>
    -- the shard that comes owned nothing
    obtain ⟨hfresh, hends, -⟩ := b.fits.up hd
    have hq : a = plan.operation.shard := hto.trans (Prod.mk.inj (hends t ht).1).1
    rw [← hq, Fit.shardSet_of_group (Collection.router_eq_ok.1 b.router).2 hmem] at hfresh
    cases hfresh
  | down =>
    obtain ⟨-, hends, -⟩ := b.fits.down hd
    obtain ⟨hleaving, -, -, hne, -⟩ := hends t ht
    exact hne (hto.symm.trans (hshard.symm.trans hleaving))

theorem Opens.moves (id : PointId) : plan.Moves c r' id where
  up hd _ _ hold hnew hne := b.moves_up ha hsite hr' hd hold hnew hne
  down hd _ _ _ hnew _ _ hp := b.moves_down hsite hr' hd hnew hp
  stay _ hold hnew _ ht hshard := b.stays hsite hr' hold hnew ht hshard

end

end Cluster

/-! ### The filters of the copies -/

/-- Two changes of one shard lead from the same ring to the same ring. -/
theorem Router.Follows.target_eq {r r' : Router} {o : Operation} {stage : Stage} (h : r.Follows o)
    (h' : r'.Follows { o with stage }) (ho : r'.old = r.old) : r'.target = r.target := by
  cases hd : o.direction with
  | up => rw [(h.up hd).2, (h'.up hd).2, ho]
  | down => rw [(h.down hd).2.2, (h'.down hd).2.2, ho]

/-- The copy is one that the plan stands for, and takes what the rings give to its target. -/
def CopyRequest.Follows (x : CopyRequest) (plan : Plan) (r : Router) : Prop :=
  ∃ t ∈ plan.transfers, t.key = x.key ∧ x.slice = some (r.targetSlice t.key.toShard)

/-- While an operation is live no transfer comes, and each copy that starts is of one that waited. -/
theorem Change.live {name : String} {epoch : UInt64} {entry : Entry} {F F' : Face} {w : Wake}
    {o : Operation} (h : Change name epoch entry F w F') (ho : F.operation = some o) :
    (∀ t ∈ F'.transfers, ∃ t₀ ∈ F.transfers, t₀.key = t.key) ∧
      ∀ x ∈ w.starts, ∃ coll r, F.collection = some coll ∧ coll.router o.key = .ok r ∧
        ∃ t ∈ F.transfers, t.key = x.key ∧ x.slice = some (r.targetSlice t.key.toShard) := by
  have hfew : ∀ {F' : Face} {w : Wake}, (∀ t ∈ F'.transfers, t ∈ F.transfers) → w.starts = [] →
      (∀ t ∈ F'.transfers, ∃ t₀ ∈ F.transfers, t₀.key = t.key) ∧
      ∀ x ∈ w.starts, ∃ coll r, F.collection = some coll ∧ coll.router o.key = .ok r ∧
        ∃ t ∈ F.transfers, t.key = x.key ∧ x.slice = some (r.targetSlice t.key.toShard) := by
    intro F' w hsub hnil
    exact ⟨fun t ht => ⟨t, hsub t ht, rfl⟩, by simp [hnil]⟩
  cases h with
  | foundAuto => cases ho
  | foundCustom => cases ho
  | deleted => cases ho
  | started => cases ho
  | replicated => cases ho
  | unclaimed => cases ho
  | keyDropped => exact hfew (fun t ht => (List.mem_filter.1 ht).1) rfl
  | rolledBack hb =>
    refine hfew (fun t ht => ?_) hb.starts_nil
    cases hb with
    | up => exact (List.mem_filter.1 ht).1
    | down => exact (List.mem_filter.1 ht).1
  | copied => exact hfew (fun t ht => List.mem_of_mem_eraseP ht) rfl
  | @sliced coll op l t transfers next starts ht hs hm hn hw =>
    obtain rfl : op = some o := ho
    obtain rfl : (Cluster.release t.key.destination (coll.transfers.eraseP (·.key == t.key))).1 =
      transfers := congrArg Prod.fst hn
    obtain rfl : (Cluster.release t.key.destination (coll.transfers.eraseP (·.key == t.key))).2 =
      next := congrArg Prod.snd hn
    refine ⟨fun t' ht' => ?_, fun x hx => ?_⟩
    · obtain ⟨t₀, hin, hk, -⟩ := Cluster.mem_release ht'
      exact ⟨t₀, List.mem_of_mem_eraseP hin, hk.symm⟩
    · obtain ⟨-, rfl⟩ | ⟨t', r, hnext, hr, rfl⟩ := hw
      · cases hx
      · obtain rfl := List.mem_singleton.1 hx
        obtain ⟨t₀, hin, rfl, -⟩ := Cluster.released_pending hnext
        exact ⟨coll, r, rfl, hr, t₀, List.mem_of_mem_eraseP hin, rfl, rfl⟩
  | discarded => exact hfew (fun t ht => (List.mem_filter.1 ht).1) rfl
  | evicted => exact hfew (fun t ht => (List.mem_filter.1 ht).1) rfl
  | _ => exact hfew (fun t ht => ht) rfl

namespace Face

/-- The operation of a collection goes on by its plan: no transfer is added to those of the plan, and
the group keeps the ring that it had at the start. -/
structure Continues (plan : Plan) (old : VersionedRing) (F : Face) : Prop where
  fits : F.Fits
  operation : ∃ stage, F.operation = some { plan.operation with stage }
  holds : F.Holds plan.operation.key old
  keys : ∀ t ∈ F.transfers, ∃ t₀ ∈ plan.transfers, t₀.key = t.key

namespace Continues
variable {plan : Plan} {r : Router} {F F' : Face} {w : Wake} {name : String} {epoch : UInt64}
  {entry : Entry}

theorem change (h : F.Continues plan r.old) (hc : Change name epoch entry F w F')
    (hn : ∀ plan, entry = .startResharding plan → plan.operation.collection ≠ name)
    (ho' : F'.operation.isSome) : F'.Continues plan r.old := by
  obtain ⟨stage, ho⟩ := h.operation
  obtain ⟨o', hop'⟩ := Option.isSome_iff_exists.1 ho'
  obtain ⟨stage', rfl⟩ := hc.stage ho hop'
  refine ⟨h.fits.change (fun plan he hname => absurd hname (hn plan he)) hc, ⟨stage', hop'⟩,
    h.holds.change hn hc, fun t ht => ?_⟩
  obtain ⟨t₀, hin, hk⟩ := (hc.live ho).1 t ht
  obtain ⟨t₁, hin, hk'⟩ := h.keys t₀ hin
  exact ⟨t₁, hin, hk'.trans hk⟩

/-- A copy that starts on the way takes what the rings of the start give to its target. -/
theorem starts (h : F.Continues plan r.old) (hr : r.Follows { plan.operation with stage := .starting })
    (hc : Change name epoch entry F w F') : ∀ x ∈ w.starts, x.Follows plan r := by
  intro x hx
  obtain ⟨stage, ho⟩ := h.operation
  obtain ⟨coll, x', hcoll, hx', t, ht, hk, hslice⟩ := (hc.live ho).2 x hx
  obtain ⟨t₀, hin, hk₀⟩ := h.keys t ht
  obtain ⟨-, _, y, hcoll', hy, hold⟩ := h.holds _ ho
  obtain rfl := Option.some.inj (hcoll.symm.trans hcoll')
  obtain rfl := Except.ok.inj (hx'.symm.trans hy)
  have hf : x'.Follows { plan.operation with stage } := by
    obtain ⟨_, y, hcoll', hy, hf⟩ := h.fits.agrees.live _ ho
    obtain rfl := Option.some.inj (hcoll.symm.trans hcoll')
    obtain rfl := Except.ok.inj (hx'.symm.trans hy)
    exact hf
  refine ⟨t₀, hin, hk₀.trans hk, ?_⟩
  rw [hslice, hk₀, Router.targetSlice, Router.targetSlice, hr.target_eq hf hold]

end Continues
end Face

/-- Where no transfer waits, only an entry that schedules one starts a copy. -/
theorem Change.starts_nil {name : String} {epoch : UInt64} {entry : Entry} {F F' : Face} {w : Wake}
    (h : Change name epoch entry F w F') (ht : F.transfers = [])
    (hn : ∀ plan, entry = .startResharding plan → plan.operation.collection ≠ name)
    (hn' : ∀ t, entry ≠ .startTransfer name t) : w.starts = [] := by
  cases h with
  | started hname => exact absurd hname (hn _ rfl)
  | replicated => exact absurd rfl (hn' _)
  | rolledBack hb => exact hb.starts_nil
  | @sliced coll op l t transfers next starts hin =>
    have hin : t ∈ Face.transfers ⟨some coll, op, l⟩ := hin
    simp [ht] at hin
  | _ => rfl

namespace Cluster
open ReplicaTable
variable {c c' c₀ : Cluster} {name : String} {plan : Plan} {coll : Collection} {r r' : Router}
  {request : ReshardingRequest} {policy : RemovalPolicy} {now : Timestamp} {entry : Entry} {e : Effects}

/-- A collection with an operation refuses to copy a whole shard. -/
theorem not_replicated (ho : (c.operation? name).isSome) (h : c.apply entry = .ok (c', e)) (t : Transfer) :
    entry ≠ .startTransfer name t := by
  rintro rfl
  obtain ⟨_, _, -, hidle, -⟩ := startTransfer_eq_ok.1 h
  simp [operation?, hidle] at ho

theorem Continues.step (h : (c.face name).Continues plan r.old) (hs : c.Sound)
    (hx : c.apply entry = .ok (c', e)) (ho' : (c'.operation? name).isSome) :
    (c'.face name).Continues plan r.old := by
  obtain ⟨stage, ho⟩ := h.operation
  have hno := not_started (Option.isSome_iff_exists.2 ⟨_, ho⟩) hx
  obtain ⟨o', hop'⟩ := Option.isSome_iff_exists.1 ho'
  obtain hsame | hc | ⟨plan', he, hname⟩ := ((apply_step hs hx).changes name).live hop'
  · exact hsame ▸ h
  · exact h.change hc hno ho'
  · exact absurd hname (hno plan' he)

/-- Whatever is accepted on the way, the copies that it starts take the points of their targets. -/
theorem Continues.spawn (h : (c.face name).Continues plan r.old)
    (hr : r.Follows { plan.operation with stage := .starting }) (hs : c.Sound)
    (hx : c.apply entry = .ok (c', e)) : ∀ x ∈ e.spawn, x.collection = name → x.Follows plan r := by
  obtain ⟨stage, ho⟩ := h.operation
  have hlive : (c.operation? name).isSome := Option.isSome_iff_exists.2 ⟨_, ho⟩
  have hstarts : ∀ x ∈ (e.wake name).starts, x.Follows plan r := by
    have hchange := (apply_step hs hx).changes name
    have hno := not_started hlive hx
    have hno' := not_replicated hlive hx
    generalize c.face name = F at h hchange
    generalize c'.face name = F' at hchange
    generalize e.wake name = w at hchange
    cases hchange with
    | none => exact nofun
    | one hc => exact h.starts hr hc
    | two hb hc =>
      intro x hx
      simp [Wake.append_def, hb.starts_nil, hc.starts_nil (h.fits.transfers_nil hb) hno hno'] at hx
  exact fun x hx hn => hstarts x (List.mem_filter.2 ⟨hx, by simpa using hn⟩)

theorem Runs.continues (h : Runs name (fun _ => True) c c') (hs : c.Sound)
    (hc : (c.face name).Continues plan r.old) : c'.Sound ∧ (c'.face name).Continues plan r.old := by
  induction h with
  | refl => exact ⟨hs, hc⟩
  | step _ _ hx ho' ih => exact ⟨(apply_step ih.1 hx).sound, Continues.step ih.2 ih.1 hx ho'⟩

theorem Opens.continues (b : Opens c name plan coll r) (ho : Opened c name plan coll r' c' e)
    (hf : (c'.face name).Fits) : (c'.face name).Continues plan r'.old := by
  refine ⟨hf, ⟨.starting, by rw [ho.face]⟩, ?_, ?_⟩
  · rw [ho.face]
    intro o hop
    obtain rfl := Option.some.inj hop
    exact ⟨rfl, _, r', rfl, Face.Agrees.router_setRouter b.router r', rfl⟩
  · rw [ho.face]
    intro t ht
    obtain ⟨t₀, hin, rfl⟩ := List.mem_map.1 ht
    exact ⟨t₀, hin, rfl⟩

/-- The start of a plan schedules its transfers, and these move every point whose owner changes, once
for each replica that needs it. The copies filter the points accordingly, those that start at once
and those that start later. -/
theorem moved_of_planned (h₀ : Reached Planned c₀)
    (hp : c₀.plan name request policy now = .ok plan) : ∃ c₁ e₁ r,
      c₀.apply (.startResharding plan) = .ok (c₁, e₁) ∧
      c₁.router name plan.operation.key = .ok r ∧
      (∃ r₀, c₀.router name plan.operation.key = .ok r₀ ∧ r.old = r₀.old) ∧ r.resharding = true ∧
      c₁.transfers name = c₀.stamped plan ∧ (∀ id, plan.Moves c₀ r id) ∧
      e₁.spawn = ((c₀.stamped plan).filter (·.status == .running)).map (copyOf name r) ∧
      ∀ c, Runs name (fun _ => True) c₁ c → ∀ entry c' e, c.apply entry = .ok (c', e) →
        ∀ x ∈ e.spawn, x.collection = name → x.Follows plan r := by
  obtain ⟨coll, r₀, r, c₁, e₁, b, ha, hr, ho⟩ := opened_of_plan h₀ hp
  have hcoll : c₁.collections.get? name = some { coll.setRouter plan.operation.key r with
      transfers := c₀.stamped plan } := congrArg Face.collection ho.face
  have hsite : r₀.Sited := by
    have hall := h₀.sited name
    rw [b.face] at hall
    exact hall.router b.router
  have h₁ : Reached Planned c₁ := h₀.step (planned_of_plan hp) ho.accepted
  have hf : r.Follows { plan.operation with stage := .starting } := b.follows hr
  refine ⟨c₁, e₁, r, ho.accepted, ?_, ⟨r₀, b.cluster_router, Router.start_old hr⟩, hf.resharding,
    transfers_eq hcoll, b.moves ha hsite hr, ho.spawn, fun c hrun entry c' e hx => ?_⟩
  · exact router_eq_ok.2 ⟨_, hcoll, Face.Agrees.router_setRouter b.router r⟩
  · obtain ⟨hs, hc⟩ := hrun.continues h₁.sound (b.continues ho (h₁.fits name))
    exact Continues.spawn hc hf hs hx

/-- A shard goes, and leaves its points to two replicas. -/
def scattering : Except Error (Cluster × Plan × Cluster × Router) := do
  let c₀ ← replay 1 1 [.addPeer 1, .addPeer 2,
    .createCollection "points" { replicationFactor := 2 } (.ofList [(0, [1, 2]), (1, [1])])]
  let plan ← c₀.plan "points" { direction := .down, shard := some 1 } .last .epoch
  let (c₁, _) ← c₀.apply (.startResharding plan)
  return (c₀, plan, c₁, ← c₁.router "points" plan.operation.key)

theorem moved_scattering : ∃ c₀ plan c₁ r, scattering = .ok (c₀, plan, c₁, r) ∧
    r.routeOld (.num 1) = some 1 ∧ r.routeNew (.num 1) = some 0 ∧
    ∀ p ∈ [1, 2], ∃ t, plan.transfers.filter
        (fun t => t.key.destination == (0, p) && t.carries r (.num 1)) = [t] ∧ t.key.shard = 1 := by
  have hlive : scattering.toOption.map (fun x => (x.2.1.operation.direction, x.2.1.operation.shard,
      x.2.2.2.routeOld (.num 1), x.2.2.2.routeNew (.num 1),
      [1, 2].all (fun p => (x.1.replicas.state x.2.1.operation.collection 0 p).toOption == some .active))) =
      some (.down, 1, some 1, some 0, true) := by decide +kernel
  obtain ⟨⟨_, _, _, _⟩, h, hlive⟩ := toOption_map_eq_some.1 hlive
  simp only [Prod.mk.injEq] at hlive
  obtain ⟨hdirection, hshard, hold, hnew, hactive⟩ := hlive
  have hsteps := h
  simp only [scattering, bind_eq_ok, pure_eq_ok, Prod.mk.injEq] at hsteps
  obtain ⟨c₀, hfound, plan, hplan, ⟨c₁, e₁⟩, h₁, r, hr, rfl, rfl, rfl, rfl⟩ := hsteps
  have hnew₀ : Reached Planned (.new 1 1) := .new 1 1
  have hplain : Reached Planned c₀ := hnew₀.applyAll (by simp [Planned]) hfound
  obtain ⟨c₁', e₁', r', h₁', hr', -, -, -, hmoves, -⟩ := moved_of_planned hplain hplan
  obtain ⟨rfl, -⟩ := Prod.mk.inj (Except.ok.inj (h₁.symm.trans h₁'))
  obtain rfl := Except.ok.inj (hr.symm.trans hr')
  refine ⟨_, _, _, _, h, hold, hnew, fun p hp => ?_⟩
  have hstate : c₀.replicas.state plan.operation.collection 0 p = .ok .active :=
    toOption_eq_some.1 (beq_iff_eq.1 (List.all_eq_true.1 hactive p hp))
  obtain ⟨t, hone, hleaves, -⟩ := (hmoves (.num 1)).down hdirection 1 0 hold hnew (by decide) p hstate
  exact ⟨t, hone, hleaves.trans hshard⟩

end Cluster
end ShardCluster
