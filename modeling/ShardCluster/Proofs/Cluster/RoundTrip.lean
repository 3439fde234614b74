import ShardCluster.Proofs.Cluster.Progress
import ShardCluster.Proofs.Cluster.Rings
/-! What a whole operation leaves behind. A shard that comes and goes again leaves the cluster as it was
but for two numbers: the version of the ring, and the epoch. -/
namespace ShardCluster
open SortedMap

namespace Layout
variable {l : Layout} {op : Operation}

/-- The replicas after a whole operation. -/
def completed (l : Layout) (op : Operation) : Layout :=
  match op.direction with
  | .up => l.put op.shard op.peer .active
  | .down => l.without [op.shard]

/-- The replica of the shard that comes is active once it is filled. -/
theorem settled_up (hfree : ∀ q p, l q p ≠ some .resharding) (hd : op.direction = .up)
    (transfers : List Transfer) {shards : List ShardId} (hs : op.shard ∈ shards) :
    (l.claimed op transfers).settled shards = l.completed op := by
  funext q p
  by_cases hhere : q = op.shard ∧ p = op.peer
  · simp [settled, claimed, completed, hd, put, hhere, hs]
  · simp [settled, claimed, completed, hd, put, hhere, hfree]

/-- A shard that had no replica has none again. -/
theorem without_put {q : ShardId} (h : ∀ p, l q p = Option.none) (p : PeerId) (s : ReplicaState) :
    (l.put q p s).without [q] = l := by
  funext q' p'
  by_cases hq : q' = q
  · simp [without, hq, h]
  · simp [without, put, hq]

end Layout

/-- The router of a group at rest. -/
def Router.resting (ring : VersionedRing) : Router := { old := ring }

theorem Router.Idle.eq_resting {r : Router} (h : r.Idle) : r = .resting r.old := by
  obtain ⟨old, new, read, write⟩ := r
  obtain ⟨hn, hr, hw⟩ := h
  simp only at hn hr hw
  rw [hn, hr, hw]
  rfl

theorem Collection.setRouter_setRouter (coll : Collection) (key : Option ShardKey) (r r' : Router) :
    (coll.setRouter key r).setRouter key r' = coll.setRouter key r' := by
  simp only [setRouter, insert_insert]

namespace Cluster
variable {c c' c'' d : Cluster} {name : String} {coll : Collection} {r : Router} {e : Effects}
  {request : ReshardingRequest} {policy : RemovalPolicy} {now : Timestamp} {plan : Plan}

/-- Where all but one collection is kept, that collection and the epoch tell which cluster it is. -/
theorem eq_of_face (hs : c.Sound) (hs' : c'.Sound) (hk : Kept name c c')
    (hc : c.collections.contains name = true) {l : Layout} (hd : Redone c d name coll none l)
    (hface : c'.face name = ⟨some coll, none, l⟩) (hepoch : c'.epoch = d.epoch) : c' = d := by
  refine ext_faces hs' (hd.sound hs hc nofun) (hk.peers.trans hd.peers.symm)
    (hk.ringPositions.trans hd.ringPositions.symm) (hk.home.trans hd.replicas.home.symm) hepoch fun n => ?_
  by_cases hn : n = name
  · rw [hn, hface, hd.face]
  · rw [hk.faces n hn, hd.face_of_ne hn]

/-- What a whole operation makes of its collection, with `ring` for the ring that it leads to. -/
structure Completed (c : Cluster) (name : String) (plan : Plan) (coll : Collection) (r : Router)
    (ring : Ring) (c' : Cluster) : Prop where
  reached : Reached Planned c'
  kept : Kept name c c'
  epoch : c'.epoch = c.epoch + 1
  changed : Router.changed r.old.ring plan.operation.change = .ok ring
  face : c'.face name = ⟨some (coll.setRouter plan.operation.key (.resting ⟨r.old.version + 1, ring⟩)),
    none, (c.replicas.look name).completed plan.operation⟩

theorem Runs.reached {allowed : Cluster → Entry → Prop} {kind : Entry → Prop} (h : Runs name kind c c')
    (hc : Reached allowed c) (ha : ∀ entry, kind entry → ∀ c, allowed c entry) : Reached allowed c' := by
  induction h with
  | refl => exact hc
  | step _ hk hx _ ih => exact ih.step (ha _ hk _) hx

theorem Completes.completed (h : Reached Planned c) (hp : c.plan name request policy now = .ok plan)
    (b : Opens c name plan coll r) (hx : Completes name plan c c') :
    ∃ ring, Completed c name plan coll r ring c' := by
  obtain ⟨c₁, e₁, c₂, e₂, hstart, hruns, hend⟩ := hx
  have h₁ : Reached Planned c₁ := h.step (planned_of_plan hp) hstart
  have h₂ : Reached Planned c₂ := hruns.reached h₁ fun _ ha _ => planned_of_advances ha
  have htouched : Touched (Change name (c.epoch + 1) (.startResharding plan)) 1 name c e₁ c₁ :=
    b.name_eq ▸ startResharding_touched hstart
  have hbegun : plan.Begun coll (c.replicas.look name) r (c₁.face name) :=
    .start (b.face ▸ htouched.change) b.router
  obtain ⟨-, ⟨coll', r', stage, hface, hconfig, hgroups, hold⟩, hkept, hepoch⟩ :=
    hruns.advanced h₁.sound (h₁.fits name) hbegun
  have hdone := finishResharding_touched hend
  obtain ⟨coll₂, op₂, r₂, r₂', hface₂, hstage, hr₂, hr₂', -, hlook⟩ := finishResharding_redone hend
  -- what the end finds is what the start has made
  rw [hface₂] at hface
  obtain ⟨hcoll, hop, hl⟩ := Face.mk.inj hface
  obtain rfl := Option.some.inj hcoll
  obtain rfl := Option.some.inj hop
  have hfits := h₂.fits name
  rw [hface₂] at hfits
  have hget := (Collection.router_eq_ok.1 hr₂).2
  rw [hgroups, get?_insert_self] at hget
  obtain rfl := Option.some.inj hget
  have hfollows := hfits.agrees.follows hr₂
  obtain ⟨ring, hring, hnew⟩ := hfollows.new
  rw [hold] at hring hnew
  have hrest : r₂' = .resting ⟨r.old.version + 1, ring⟩ := by
    obtain ⟨new, hn, rfl⟩ := Router.finish_eq_ok.1 hr₂'
    obtain rfl := Option.some.inj (hnew.symm.trans hn)
    rfl
  have hnil : coll₂.transfers = [] := (hfits.fit coll₂ rfl).transfers_nil hr₂
    (fun hs => by rw [show stage = .awaitingFinish from hstage] at hs; cases hs)
  have hset : coll₂.setRouter plan.operation.key r₂' =
      coll.setRouter plan.operation.key (.resting ⟨r.old.version + 1, ring⟩) := by
    have hcoll : coll₂ = coll.setRouter plan.operation.key r' := by
      obtain ⟨config, groups, transfers⟩ := coll₂
      simp only at hconfig hgroups hnil
      rw [hconfig, hgroups, hnil, ← b.transfers]
      rfl
    rw [hcoll, Collection.setRouter_setRouter, hrest]
  refine ⟨ring, h₂.step (by simp [Planned]) hend, htouched.kept.trans (hkept.trans hdone.kept), ?_, hring, ?_⟩
  · rw [hdone.epoch, UInt64.add_zero, hepoch, htouched.epoch]
  · obtain ⟨hd, hredone, -⟩ | ⟨hd, hredone, -⟩ := hlook
    · have hfree := (b.fit.idle rfl).1
      have hsettled : ((c.replicas.look name).claimed plan.operation plan.transfers).settled r'.shards =
          (c.replicas.look name).completed plan.operation :=
        Layout.settled_up hfree hd _ hfollows.shard_mem
      rw [hredone.face, hset, hl, hsettled]
    · have hsub : ∀ q ∈ r.shards, q ∈ r'.shards := fun q hq =>
        Router.mem_shards.2 (.inl (hold ▸ b.rest.mem_shards.1 hq))
      rw [hredone.face, hset, hl, Plan.Begun.restored_down b.fit b.fits hd hsub]
      simp only [Layout.completed, show plan.operation.direction = .down from hd]

/-- A shard that is to come has no replica yet. -/
theorem Opens.vacant (b : Opens c name plan coll r) (hd : plan.operation.direction = .up) (p : PeerId) :
    c.replicas.look name plan.operation.shard p = none :=
  b.fit.unhoused (b.fits.up hd).1 p

/-- The cluster with another ring for a group at rest, and nothing else new but the epoch. -/
def regrouped (c : Cluster) (name : String) (coll : Collection) (key : Option ShardKey)
    (ring : VersionedRing) (epochs : UInt64) : Cluster :=
  { c with
    collections := c.collections.insert name (coll.setRouter key (.resting ring))
    epoch := c.epoch + epochs }

/-- A shard that comes brings its ring and its replica, and nothing else. -/
theorem Completed.split (hs : c.Sound) (b : Opens c name plan coll r)
    (hd : plan.operation.direction = .up) {ring : Ring} (x : Completed c name plan coll r ring c')
    {table : ReplicaTable}
    (ht : c.replicas.insert name plan.operation.shard plan.operation.peer .active = .ok table) :
    ring = r.old.ring.add plan.operation.shard ∧
    c' = { c.regrouped name coll plan.operation.key ⟨r.old.version + 1, ring⟩ 1 with
      replicas := table } := by
  have hring : ring = r.old.ring.add plan.operation.shard := by
    obtain ⟨-, -, h⟩ | ⟨h, -⟩ := Router.changed_eq_ok.1 x.changed
    · exact h.symm
    · rw [hd] at h
      cases h
  have hlook : (c.replicas.look name).completed plan.operation =
      (c.replicas.look name).put plan.operation.shard plan.operation.peer .active := by
    rw [Layout.completed, hd]
  exact ⟨hring, eq_of_face hs x.reached.sound x.kept (contains_iff.2 ⟨coll, b.collection⟩)
    (Redone.edit (c.epoch + 1) _ (ReplicaTable.insert_redrawn ht) (get?_same b.idle))
    (hlook ▸ x.face) x.epoch⟩

/-- A shard that goes when it has just come takes its ring and its replica with it. -/
theorem Completed.merge (hs : c.Sound) (b : Opens c name plan coll r)
    (hd : plan.operation.direction = .up)
    (x : Completed c name plan coll r (r.old.ring.add plan.operation.shard) c')
    {plan' : Plan} {coll' : Collection} {r' : Router} (b' : Opens c' name plan' coll' r')
    (hd' : plan'.operation.direction = .down) (hshard : plan'.operation.shard = plan.operation.shard)
    (hkey : plan'.operation.key = plan.operation.key)
    (hback : (r.old.ring.add plan.operation.shard).remove plan.operation.shard = r.old.ring)
    {ring : Ring} (x' : Completed c' name plan' coll' r' ring c'') :
    c'' = c.regrouped name coll plan.operation.key ⟨r.old.version + 2, r.old.ring⟩ 2 := by
  -- the group rests on the ring that the first operation has led to
  have hface := x.face
  rw [b'.face] at hface
  obtain ⟨hcoll, -, hl⟩ := Face.mk.inj hface
  obtain rfl := Option.some.inj hcoll
  have hr := b'.router
  rw [hkey, Face.Agrees.router_setRouter b.router] at hr
  obtain rfl := Except.ok.inj hr
  have hring : ring = r.old.ring := by
    obtain ⟨h, -⟩ | ⟨-, -, -, h⟩ := Router.changed_eq_ok.1 x'.changed
    · rw [hd'] at h
      cases h
    · rw [hshard] at h
      exact h.symm.trans hback
  have hlook : (c'.replicas.look name).completed plan'.operation = c.replicas.look name := by
    rw [hl, Layout.completed, hd', hshard, Layout.completed, hd]
    exact Layout.without_put (fun p => b.vacant hd p) _ _
  refine eq_of_face hs x'.reached.sound (x.kept.trans x'.kept) (contains_iff.2 ⟨coll, b.collection⟩)
    (Redone.edit (c.epoch + 2) _ (.refl _ _) (get?_same b.idle)) ?_ ?_
  · rw [x'.face, hkey, Collection.setRouter_setRouter, hlook, hring]
    rfl
  · rw [x'.epoch, x.epoch, UInt64.add_assoc]
    rfl

/-- A shard that comes and goes again, through plans for it that are carried out from start to end,
leaves the cluster as it was but for the version of the ring and the epoch. -/
theorem returned_of_planned (h : Reached Planned c) (hp : c.plan name request policy now = .ok plan)
    (hd : request.direction = .up) : ∃ coll ring table,
      c.collections.get? name = some coll ∧ coll.router request.key = .ok (.resting ring) ∧
      ring.ring.contains plan.operation.shard = false ∧
      (∀ p, c.replicas.look name plan.operation.shard p = none) ∧
      c.replicas.insert name plan.operation.shard plan.operation.peer .active = .ok table ∧
      (∃ c₁, Completes name plan c c₁) ∧
      ∀ c₁, Completes name plan c c₁ →
        c₁ = { c.regrouped name coll request.key
          ⟨ring.version + 1, ring.ring.add plan.operation.shard⟩ 1 with replicas := table } ∧
        ∀ request' policy' now' plan', c₁.plan name request' policy' now' = .ok plan' →
          request'.direction = .down → request'.shard = some plan.operation.shard →
          (∃ c₂, Completes name plan' c₁ c₂) ∧
          ((∀ s, ring.ring.contains s = true → ∀ i, i < ring.ring.perShard → ∀ j, j < ring.ring.perShard →
              Ring.position plan.operation.shard i ≠ Ring.position s j) →
            ∀ c₂, Completes name plan' c₁ c₂ →
              c₂ = c.regrouped name coll request.key ⟨ring.version + 2, ring.ring⟩ 2) := by
  obtain ⟨coll, r, b⟩ := Opens.of_plan h hp
  have ha := plan_answers hp b.cluster_router
  have hup : plan.operation.direction = .up := ha.direction.trans hd
  obtain ⟨table, htable⟩ := b.insert_ok h.sound plan.operation.shard plan.operation.peer .active
  rw [← ha.key]
  refine ⟨coll, r.old, table, b.collection, b.rest.eq_resting ▸ b.router, b.fresh hup, b.vacant hup,
    htable, completes_of_planned h hp, fun c₁ hx => ?_⟩
  obtain ⟨ring, x⟩ := hx.completed h hp b
  obtain ⟨rfl, hc₁⟩ := x.split h.sound b hup htable
  refine ⟨hc₁, fun request' policy' now' plan' hp' hd' hs' => ⟨completes_of_planned x.reached hp',
    fun hapart c₂ hx' => ?_⟩⟩
  obtain ⟨coll', r', b'⟩ := Opens.of_plan x.reached hp'
  have ha' := plan_answers hp' b'.cluster_router
  have hdown : plan'.operation.direction = .down := ha'.direction.trans hd'
  have hshard := (ha'.shard _ hs').symm
  obtain ⟨_, x'⟩ := hx'.completed x.reached hp' b'
  -- the group that has the shard is the one it came to
  have hkey : plan'.operation.key = plan.operation.key := by
    have hface := x.face
    rw [b'.face] at hface
    obtain rfl := Option.some.inj (Face.mk.inj hface).1
    have hr := Face.Agrees.router_setRouter b.router
      (.resting ⟨r.old.version + 1, r.old.ring.add plan.operation.shard⟩)
    have hin := (ha'.down hdown).1
    rw [hshard] at hin
    exact b'.fit.parted.apart (Collection.router_eq_ok.1 b'.router).2
      (Collection.router_eq_ok.1 hr).2 hin
      (Router.mem_shards.2 (.inl (Ring.contains_add.2 (.inl rfl))))
  have hsited : r.old.ring.Sited := by
    have hall := h.sited name
    rw [b.face] at hall
    exact (hall.router b.router).old
  exact x.merge h.sound b hup b' hdown hshard hkey
    (hsited.remove_add (b.fresh hup) fun s hs i hi j hj => hapart s hs i hi j hj) x'

/-- A shard comes and is to go again. -/
def visiting : Except Error (Cluster × Plan × Cluster × Plan) := do
  let c ← replay 1 1 [.addPeer 1, .addPeer 2, .createCollection "points" {} (.ofList [(0, [1])])]
  let plan ← c.plan "points" { direction := .up } .last .epoch
  let coll ← c.collection "points"
  let r ← coll.router none
  let table ← c.replicas.insert "points" plan.operation.shard plan.operation.peer .active
  let c₁ := { c.regrouped "points" coll none
    ⟨r.old.version + 1, r.old.ring.add plan.operation.shard⟩ 1 with replicas := table }
  let plan' ← c₁.plan "points" { direction := .down, shard := some plan.operation.shard } .last .epoch
  return (c, plan, c₁, plan')

theorem returned_visiting : ∃ c plan c₁ plan' c₂, visiting = .ok (c, plan, c₁, plan') ∧
    Completes "points" plan c c₁ ∧ Completes "points" plan' c₁ c₂ ∧
    c₁.replicas.state "points" plan.operation.shard 2 = .ok .active ∧ c₂.replicas = c.replicas ∧
    c₂.epoch = c.epoch + 2 := by
  have hlive : visiting.toOption.map (fun x => (
      (x.1.router "points" none).toOption.map (fun r => (r.old.ring.perShard, r.old.ring.shards.toList)),
      Ring.position x.2.1.operation.shard 0 != Ring.position 0 0,
      (x.2.2.1.replicas.state "points" x.2.1.operation.shard 2).toOption)) =
      some (some (1, [0]), true, some .active) := by decide +kernel
  obtain ⟨⟨_, _, _, _⟩, h, hlive⟩ := toOption_map_eq_some.1 hlive
  simp only [Prod.mk.injEq] at hlive
  obtain ⟨hring, hapart, hstate⟩ := hlive
  have hsteps := h
  simp only [visiting, bind_eq_ok, pure_eq_ok, Prod.mk.injEq] at hsteps
  obtain ⟨c, hfound, plan, hplan, coll, hc, r, hr, table, htable, plan', hplan', rfl, rfl, rfl, rfl⟩ :=
    hsteps
  have hnew : Reached Planned (.new 1 1) := .new 1 1
  have hplain : Reached Planned c := hnew.applyAll (by simp [Planned]) hfound
  obtain ⟨_, ring, _, hc₁, hr₁, -, -, htable₁, ⟨c₁, hgo⟩, hall⟩ :=
    returned_of_planned hplain hplan rfl
  obtain rfl := Option.some.inj ((collection_eq_ok.1 hc).symm.trans hc₁)
  obtain rfl := Except.ok.inj (htable.symm.trans htable₁)
  obtain rfl := Except.ok.inj (hr.symm.trans hr₁)
  obtain ⟨rfl, hback⟩ := hall c₁ hgo
  obtain ⟨⟨c₂, hgo'⟩, hsame⟩ := hback _ _ _ _ hplan' rfl rfl
  have hfree : ∀ s, ring.ring.contains s = true → ∀ i, i < ring.ring.perShard → ∀ j,
      j < ring.ring.perShard → Ring.position plan.operation.shard i ≠ Ring.position s j := by
    obtain ⟨hone, honly⟩ : ring.ring.perShard = 1 ∧ ring.ring.shards.toList = [0] := by
      rw [router_eq_ok.2 ⟨coll, hc₁, hr⟩] at hring
      exact Prod.mk.inj (Option.some.inj hring)
    intro s hs i hi j hj
    have hs : s ∈ ring.ring.shards.toList := SortedSet.mem_toList.2 hs
    obtain rfl : s = 0 := by simpa [honly] using hs
    obtain ⟨rfl, rfl⟩ : i = 0 ∧ j = 0 := by omega
    simpa using hapart
  obtain rfl := hsame hfree c₂ hgo'
  exact ⟨_, _, _, _, _, h, hgo, hgo', toOption_eq_some.1 hstate, rfl, rfl⟩

end Cluster
end ShardCluster
