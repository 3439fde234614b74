import ShardCluster.Proofs.Cluster.Rollback
/-! The readable replicas of a group that loses a shard. An operation sends points to those that are
active when it is planned; a replica that is set active later gets nothing. -/
namespace ShardCluster
open SortedMap

/-- Only its stage changes while an operation is live. -/
theorem Change.stage {name : String} {epoch : UInt64} {entry : Entry} {F F' : Face} {w : Wake}
    {o o' : Operation} (h : Change name epoch entry F w F') (ho : F.operation = some o)
    (ho' : F'.operation = some o') : ∃ stage, o' = { o with stage } := by
  have hsame : F'.operation = F.operation → ∃ stage, o' = { o with stage } := by
    intro he
    rw [he, ho] at ho'
    obtain rfl := Option.some.inj ho'
    exact ⟨o.stage, rfl⟩
  cases h with
  | foundAuto => cases ho
  | foundCustom => cases ho
  | deleted => cases ho
  | keyAdded => exact hsame rfl
  | keyDropped => exact hsame rfl
  | started => cases ho
  | readCommitted =>
    obtain rfl := Option.some.inj ho
    exact ⟨_, (Option.some.inj ho').symm⟩
  | writeCommitted =>
    obtain rfl := Option.some.inj ho
    exact ⟨_, (Option.some.inj ho').symm⟩
  | finishedUp => cases ho'
  | finishedDown => cases ho'
  | rolledBack hb =>
    rw [hb.operation.2] at ho'
    cases ho'
  | replicated => cases ho
  | copied => exact hsame rfl
  | @sliced coll op l t transfers next starts ht hs hm hn hw =>
    obtain rfl : op = some o := ho
    exact ⟨_, (Option.some.inj ho').symm.trans (Operation.settled_eq o transfers)⟩
  | discarded => exact hsame rfl
  | unclaimed => cases ho
  | replicaDropped => exact hsame rfl
  | stateSet => exact hsame rfl
  | evicted => exact hsame rfl

/-- Only a start gives a collection an operation. -/
theorem Change.start {name : String} {epoch : UInt64} {entry : Entry} {F F' : Face} {w : Wake}
    {o' : Operation} (h : Change name epoch entry F w F') (ho : F.operation = none)
    (ho' : F'.operation = some o') :
    ∃ plan, entry = .startResharding plan ∧ plan.operation.collection = name := by
  cases h with
  | started hn => exact ⟨_, rfl, hn⟩
  | rolledBack hb => cases hb.operation.2.symm.trans ho'
  | sliced =>
    obtain ⟨o, hop, -⟩ := Option.map_eq_some_iff.1 ho'
    cases ho.symm.trans hop
  | foundAuto => cases ho'
  | foundCustom => cases ho'
  | deleted => cases ho'
  | readCommitted => cases ho
  | writeCommitted => cases ho
  | finishedUp => cases ho'
  | finishedDown => cases ho'
  | replicated => cases ho'
  | unclaimed => cases ho'
  | _ => cases ho.symm.trans ho'

/-- A collection that is left with an operation goes through one change at most, or starts anew. -/
theorem Changes.live {name : String} {epoch : UInt64} {entry : Entry} {F F' : Face} {w : Wake}
    {o' : Operation} (h : Changes name epoch entry F w F') (ho' : F'.operation = some o') :
    F' = F ∨ Change name epoch entry F w F' ∨
      ∃ plan, entry = .startResharding plan ∧ plan.operation.collection = name := by
  cases h with
  | none => exact .inl rfl
  | one hc => exact .inr (.inl hc)
  | two hb hc => exact .inr (.inr (hc.start hb.operation.2 ho'))

namespace Face

/-- On the shards of the old ring that stay, the plan fills what is being filled, and what is active
has been set so. -/
structure Received (plan : Plan) (old : VersionedRing) (set : ShardId → PeerId → Prop) (F : Face) :
    Prop where
  filled : ∀ q p, old.ring.contains q = true → q ≠ plan.operation.shard →
    F.look q p = some .resharding → ∃ t ∈ plan.transfers, t.key.destination = (q, p)
  active : ∀ q p, old.ring.contains q = true → q ≠ plan.operation.shard →
    F.look q p = some .active → set q p

namespace Received
variable {plan : Plan} {old : VersionedRing} {set set' : ShardId → PeerId → Prop} {F F' : Face}

theorem keep (h : F.Received plan old set) (hset : ∀ q p, set q p → set' q p)
    (hl : ∀ q p s, old.ring.contains q = true → F'.look q p = some s →
      F.look q p = some s ∨ s ≠ .resharding ∧ (s = .active → set' q p)) :
    F'.Received plan old set' := by
  refine ⟨fun q p hq hne hp => ?_, fun q p hq hne hp => ?_⟩
  · obtain hx | ⟨hx, -⟩ := hl q p _ hq hp
    · exact h.filled q p hq hne hx
    · exact absurd rfl hx
  · obtain hx | ⟨-, hx⟩ := hl q p _ hq hp
    · exact hset q p (h.active q p hq hne hx)
    · exact hx rfl

/-- A plan sends points to every active replica. -/
theorem started {coll : Collection} {l : Layout} {r : Router} (hf : Fits ⟨some coll, none, l⟩)
    (hr : coll.router plan.operation.key = .ok r) (hp : plan.Fits coll l r)
    (hd : plan.operation.direction = .down) (hF : F.look = l.claimed plan.operation plan.transfers) :
    F.Received plan r.old set := by
  have hi : r.Idle := hf.agrees.rests (Collection.router_eq_ok.1 hr).2
  obtain ⟨-, -, -, hall, -⟩ := hp.down hd
  have hlook : ∀ q p, F.look q p = if (q, p) ∈ plan.transfers.map (·.key.destination) then
      some .resharding else l q p := by
    intro q p
    simp only [hF, Layout.claimed, hd, Layout.marked]
  refine ⟨fun q p hq hne hx => ?_, fun q p hq hne hx => ?_⟩
  · rw [hlook] at hx
    split at hx
    · rename_i hm
      obtain ⟨t, ht, hdest⟩ := List.mem_map.1 hm
      exact ⟨t, ht, hdest⟩
    · exact absurd hx (((hf.fit coll rfl).idle rfl).1 q p)
  · rw [hlook] at hx
    split at hx
    · cases hx
    · rename_i hm
      obtain ⟨t, ht, hdest⟩ := hall q (hi.mem_shards.2 hq) hne p hx
      exact absurd (List.mem_map.2 ⟨t, ht, hdest⟩) hm

theorem change {name : String} {epoch : UInt64} {entry : Entry} {w : Wake} {key : Option ShardKey}
    {o : Operation} (h : F.Received plan old set) (hf : F.Fits) (hk : F.Holds key old)
    (ho : F.operation = some o) (ho' : F'.operation.isSome) (hset : ∀ q p, set q p → set' q p)
    (hset' : ∀ q p, entry = .setReplicaState name q p .active → set' q p)
    (hc : Change name epoch entry F w F') : F'.Received plan old set' := by
  have hcut : ∀ {x : Option ReplicaState} {s : ReplicaState} {gone : Prop} [Decidable gone],
      (if gone then none else x) = some s → x = some s := by
    intro x s gone _ hx
    split at hx
    · cases hx
    · exact hx
  cases hc with
  | foundAuto => cases ho
  | foundCustom => cases ho
  | deleted => cases ho
  | @keyAdded coll op l k placement n hm hnone hp hnew hh =>
    obtain ⟨-, _, r, hcoll, hr, rfl⟩ := hk o ho
    obtain rfl := Option.some.inj hcoll
    refine h.keep hset fun q p s hq hs => .inl ?_
    simp only [Layout.placed] at hs
    split at hs
    · rename_i hin
      -- the new group has other shards
      have hown : coll.shardSet.contains q = true :=
        Fit.shardSet_of_group (Collection.router_eq_ok.1 hr).2 (Router.mem_shards.2 (.inl hq))
      have hplaced : q ∈ placement.keys := by
        cases hget : placement.get? q with
        | none => simp [hget] at hin
        | some hosts => exact mem_keys.2 ⟨hosts, hget⟩
      rw [hnew q hplaced] at hown
      cases hown
    · exact hs
  | keyDropped => exact h.keep hset fun q p s _ hs => .inl (hcut hs)
  | started => cases ho
  | readCommitted => exact h.keep hset fun q p s _ hs => .inl hs
  | writeCommitted => exact h.keep hset fun q p s _ hs => .inl hs
  | finishedUp => cases ho'
  | finishedDown => cases ho'
  | rolledBack hb =>
    rw [hb.operation.2] at ho'
    cases ho'
  | replicated => cases ho
  | @copied coll op l t ht hs hm hd =>
    obtain rfl := (hf.fit coll rfl).operation_none hf.agrees ht hm
    cases ho
  | sliced => exact h.keep hset fun q p s _ hs => .inl hs
  | discarded => exact h.keep hset fun q p s _ hs => .inl (hcut hs)
  | unclaimed => cases ho
  | replicaDropped => exact h.keep hset fun q p s _ hs => .inl (hcut hs)
  | @stateSet coll op l q p was state hu hl hwas hstate =>
    refine h.keep hset fun q' p' s _ hs => ?_
    simp only [Layout.put] at hs
    split at hs
    · rename_i he
      obtain ⟨rfl, rfl⟩ := he
      obtain rfl := Option.some.inj hs
      exact .inr ⟨hstate, fun ha => hset' q' p' (by rw [ha])⟩
    · exact .inl hs
  | evicted => exact h.keep hset fun q p s _ hs => .inl (hcut hs)

end Received
end Face

namespace Cluster
variable {c c' c₁ : Cluster} {name : String} {plan : Plan} {op : Operation} {e : Effects} {entry : Entry}

/-- `c₁` is a state in which an operation has just been started by its plan. -/
def Starts (name : String) (plan : Plan) (c₁ : Cluster) : Prop :=
  ∃ c₀ request policy now e, Reached Planned c₀ ∧ c₀.plan name request policy now = .ok plan ∧
    c₀.apply (.startResharding plan) = .ok (c₁, e)

/-- In the course of an operation the replica has been set active. -/
def Revived (name : String) (c₁ : Cluster) (q : ShardId) (p : PeerId) (c : Cluster) : Prop :=
  ∃ c₂ c₃ e, Runs name (fun _ => True) c₁ c₂ ∧
    c₂.apply (.setReplicaState name q p .active) = .ok (c₃, e) ∧ Runs name (fun _ => True) c₃ c

/-- The operation of a collection is the one that started with `c₁`, and this has become of its group. -/
structure Launched (name : String) (plan : Plan) (c₁ c : Cluster) : Prop where
  runs : Runs name (fun _ => True) c₁ c
  operation : ∃ stage, c.operation? name = some { plan.operation with stage }
  received : plan.operation.direction = .down → ∃ old, (c.face name).Holds plan.operation.key old ∧
    (c.face name).Received plan old fun q p => Revived name c₁ q p c

theorem Starts.launched (h : Starts name plan c₁) : Launched name plan c₁ c₁ := by
  obtain ⟨c₀, request, policy, now, e, h₀, hp, hx⟩ := h
  obtain ⟨hname, hidle, coll, r, hcoll, -, hr, hfits⟩ := plan_fits hp
  have hface : c₀.face name = ⟨some coll, none, c₀.replicas.look name⟩ := by rw [face, hcoll, hidle]
  have hf := h₀.fits name
  have hstart : Touched (Change name (c₀.epoch + 1) (.startResharding plan)) 1 name c₀ e c₁ :=
    hname ▸ startResharding_touched hx
  have hbegun := Plan.Begun.start (hface ▸ hstart.change) hr
  refine ⟨.refl, ?_, fun hd => ⟨r.old, hbegun.holds hr, ?_⟩⟩
  · obtain ⟨_, _, stage, hafter, -⟩ := hbegun
    exact ⟨stage, congrArg Face.operation hafter⟩
  · obtain ⟨_, _, stage, hafter, -⟩ := hbegun
    rw [hface] at hf
    exact .started hf hr hfits hd (congrArg Face.look hafter)

theorem Launched.step (h : Launched name plan c₁ c) (hs : c.Sound) (hf : (c.face name).Fits)
    (hx : c.apply entry = .ok (c', e)) (ho' : (c'.operation? name).isSome) :
    Launched name plan c₁ c' := by
  obtain ⟨hruns, ⟨stage, ho⟩, hreceived⟩ := h
  have hno := not_started (Option.isSome_iff_exists.2 ⟨_, ho⟩) hx
  have hruns' : Runs name (fun _ => True) c₁ c' := hruns.step trivial hx ho'
  have hrevived : ∀ q p, Revived name c₁ q p c → Revived name c₁ q p c' := by
    intro q p h
    obtain ⟨c₂, c₃, e', h₂, hset, h₃⟩ := h
    exact ⟨c₂, c₃, e', h₂, hset, h₃.step trivial hx ho'⟩
  have hset : ∀ q p, entry = .setReplicaState name q p .active → Revived name c₁ q p c' := by
    intro q p he
    subst he
    exact ⟨c, c', e, hruns, hx, .refl⟩
  obtain ⟨o', hop'⟩ := Option.isSome_iff_exists.1 ho'
  obtain hsame | hc | ⟨plan', he, hname⟩ := ((apply_step hs hx).changes name).live hop'
  · refine ⟨hruns', ⟨stage, (congrArg Face.operation hsame).trans ho⟩, fun hd => ?_⟩
    obtain ⟨old, hh, hr⟩ := hreceived hd
    rw [hsame]
    exact ⟨old, hh, hr.keep hrevived fun q p s _ hl => .inl hl⟩
  · obtain ⟨stage', rfl⟩ := hc.stage ho hop'
    refine ⟨hruns', ⟨stage', hop'⟩, fun hd => ?_⟩
    obtain ⟨old, hh, hr⟩ := hreceived hd
    exact ⟨old, hh.change hno hc, hr.change hf hh ho ho' hrevived hset hc⟩
  · exact absurd hname (hno plan' he)

/-- Every live operation has been launched. -/
theorem Reached.launched (h : Reached Planned c) (ho : c.operation? name = some op) :
    ∃ plan c₁, Starts name plan c₁ ∧ Launched name plan c₁ c := by
  induction h generalizing op with
  | new home positions => cases ho
  | @step c c' entry e hc ha hx ih =>
    have ho' : (c'.operation? name).isSome := Option.isSome_iff_exists.2 ⟨op, ho⟩
    cases hop : c.operation? name with
    | some o =>
      obtain ⟨plan, c₁, hstart, hlaunched⟩ := ih hop
      exact ⟨plan, c₁, hstart, hlaunched.step hc.sound (hc.fits name) hx ho'⟩
    | none =>
      obtain ⟨plan, rfl, hname⟩ : ∃ plan, entry = .startResharding plan ∧
          plan.operation.collection = name := by
        obtain hsame | hchange | hstart := ((apply_step hc.sound hx).changes name).live ho
        · cases hop.symm.trans ((congrArg Face.operation hsame).symm.trans ho)
        · exact hchange.start hop ho
        · exact hstart
      obtain ⟨name', request, policy, now, hplan⟩ := ha plan rfl
      obtain rfl : name' = name := (plan_fits hplan).1.symm.trans hname
      have hstart : Starts name' plan c' := ⟨c, request, policy, now, e, hc, hplan, hx⟩
      exact ⟨plan, c', hstart, hstart.launched⟩

/-- While an operation takes a shard out of a group, the readable replicas of the other shards are
those that its plan sends points to, and those that have been set active since. -/
theorem receivers_of_reached (h : Reached Planned c) (ho : c.operation? name = some op)
    (hd : op.direction = .down) : ∃ plan c₁, Starts name plan c₁ ∧
      Runs name (fun _ => True) c₁ c ∧ op = { plan.operation with stage := op.stage } ∧
      ∀ r, c.router name op.key = .ok r → ∀ q ∈ r.shards, q ≠ op.shard → ∀ p s,
        c.replicas.state name q p = .ok s → s.readable = true →
          s = .resharding ∧ (∃ t ∈ plan.transfers, t.key.destination = (q, p)) ∨
          s = .active ∧ Revived name c₁ q p c := by
  obtain ⟨plan, c₁, hstart, hruns, ⟨stage, hop⟩, hreceived⟩ := h.launched ho
  obtain rfl := Option.some.inj (ho.symm.trans hop)
  refine ⟨plan, c₁, hstart, hruns, rfl, fun r hr q hq hne p s hs hread => ?_⟩
  obtain ⟨old, hholds, hfilled, hactive⟩ := hreceived hd
  obtain ⟨-, coll, x, hcoll, hx, rfl⟩ := hholds _ ho
  obtain ⟨_, hsame, hr⟩ := router_eq_ok.1 hr
  obtain rfl := Option.some.inj (hcoll.symm.trans hsame)
  obtain rfl := Except.ok.inj (hx.symm.trans hr)
  have hold : x.old.ring.contains q = true := by
    have hagrees := (h.fits name).agrees
    rw [face, hsame, show c.operations.get? name = _ from ho] at hagrees
    exact ((hagrees.follows hr).mem_shards_down hd).1 hq
  have hlook := ReplicaTable.state_eq_ok.1 hs
  cases s with
  | resharding => exact .inl ⟨rfl, hfilled q p hold hne hlook⟩
  | active => exact .inr ⟨rfl, hactive q p hold hne hlook⟩
  | partialCopy => cases hread
  | dead => cases hread

/-- A replica that is dead while the removal of a shard is planned is set active once all points are
sent, before reads move. -/
def belated : Except Error (Plan × Cluster × Cluster × Cluster × Cluster) := do
  let c₀ ← replay 2 1 [.addPeer 1, .addPeer 2,
    .createCollection "points" { replicationFactor := 2 } (.ofList [(0, [1, 2]), (1, [2, 1])]),
    .setReplicaState "points" 0 2 .dead]
  let plan ← c₀.plan "points" { direction := .down, shard := some 1 } .last .epoch
  let (c₁, _) ← c₀.apply (.startResharding plan)
  let (c₂, _) ← c₁.apply (.finishTransfer "points" ⟨1, 0, 1, 1⟩ 1)
  let (c₃, _) ← c₂.apply (.setReplicaState "points" 0 2 .active)
  let (c₄, _) ← c₃.apply (.commitRead "points")
  return (plan, c₁, c₂, c₃, c₄)

theorem belated_ok : ∃ plan c₁ c op r, Starts "points" plan c₁ ∧ Runs "points" (fun _ => True) c₁ c ∧
    Reached Planned c ∧ c.operation? "points" = some op ∧ op.direction = .down ∧
    op.stage.readCommitted = true ∧ c.router "points" op.key = .ok r ∧ 0 ∈ r.shards ∧ 0 ≠ op.shard ∧
    c.replicas.state "points" 0 2 = .ok .active ∧ ∀ t ∈ plan.transfers, t.key.destination ≠ (0, 2) := by
  have hrun : belated.toOption.map (fun x => decide (
      (∀ t ∈ x.1.transfers, t.key.destination ≠ (0, 2)) ∧
      (x.2.2.1.operation? "points").isSome ∧ (x.2.2.2.1.operation? "points").isSome ∧
      x.2.2.2.2.operation? "points" = some
        { collection := "points", direction := .down, peer := 1, shard := 1
          stage := .awaitingWriteCommit } ∧
      (x.2.2.2.2.router "points" none).toOption.map (·.shards.contains 0) = some true ∧
      (x.2.2.2.2.replicas.state "points" 0 2).toOption = some .active)) = some true := by
    decide +kernel
  have hok : ∀ {α : Type} {x : Except Error α} {a : α}, x.toOption = some a → x = .ok a := by
    intro α x a hx
    cases x with
    | error err => cases hx
    | ok y => rw [Option.some.inj hx]
  obtain ⟨_, hx, hrun⟩ := Option.map_eq_some_iff.1 hrun
  obtain ⟨hunsent, hlive₂, hlive₃, hlive, hgroup, hstate⟩ := of_decide_eq_true hrun
  obtain ⟨r, hr, hin⟩ := Option.map_eq_some_iff.1 hgroup
  have hx := hok hx
  simp only [belated, bind_eq_ok, pure_eq_ok] at hx
  obtain ⟨c₀, hfound, plan, hplan, ⟨c₁, e₁⟩, h₁, ⟨c₂, e₂⟩, h₂, ⟨c₃, e₃⟩, h₃, ⟨c₄, e₄⟩, h₄, rfl⟩ := hx
  have hnew : Reached Planned (.new 2 1) := .new 2 1
  have hplain : Reached Planned c₀ := hnew.applyAll (by simp [Planned]) hfound
  have hreached : Reached Planned c₄ :=
    (((hplain.step (planned_of_plan hplan) h₁).step (by simp [Planned]) h₂).step (by simp [Planned])
      h₃).step (by simp [Planned]) h₄
  have hruns : Runs "points" (fun _ => True) c₁ c₄ :=
    ((Runs.refl.step trivial h₂ hlive₂).step trivial h₃ hlive₃).step trivial h₄
      (Option.isSome_iff_exists.2 ⟨_, hlive⟩)
  exact ⟨plan, c₁, c₄, _, r, ⟨c₀, _, _, _, e₁, hplain, hplan, h₁⟩, hruns, hreached, hlive, rfl, rfl,
    hok hr, by simpa using hin, by decide, hok hstate, hunsent⟩

/-- The replica has been set active in the course of the operation. -/
theorem receivers_belated : ∃ c op plan c₁, Reached Planned c ∧ c.operation? "points" = some op ∧
    op.direction = .down ∧ Starts "points" plan c₁ ∧ Revived "points" c₁ 0 2 c := by
  obtain ⟨_, _, c, op, r, -, -, hreached, ho, hd, -, hr, hin, hne, hstate, -⟩ := belated_ok
  obtain ⟨plan, c₁, hstart, -, -, hall⟩ := receivers_of_reached hreached ho hd
  obtain ⟨hfilled, -⟩ | ⟨-, hrevived⟩ := hall r hr 0 hin hne 2 _ hstate rfl
  · cases hfilled
  · exact ⟨c, op, plan, c₁, hreached, ho, hd, hstart, hrevived⟩

/-- So the plan need not send points to every replica that serves reads. -/
theorem unsent_belated : ¬∀ name plan c₁ c op r, Starts name plan c₁ →
    Runs name (fun _ => True) c₁ c → Reached Planned c → c.operation? name = some op →
    op.direction = .down → op.stage.readCommitted = true → c.router name op.key = .ok r →
    ∀ q ∈ r.shards, q ≠ op.shard → ∀ p s, c.replicas.state name q p = .ok s → s.readable = true →
      ∃ t ∈ plan.transfers, t.key.destination = (q, p) := by
  intro hall
  obtain ⟨plan, c₁, c, op, r, hstart, hruns, hreached, ho, hd, hread, hr, hin, hne, hstate, hunsent⟩ :=
    belated_ok
  obtain ⟨t, ht, hdest⟩ := hall "points" plan c₁ c op r hstart hruns hreached ho hd hread hr 0 hin hne 2
    _ hstate rfl
  exact hunsent t ht hdest

end Cluster
end ShardCluster
