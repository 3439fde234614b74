import ShardCluster.Proofs.Cluster.PlanStart
/-! An operation keeps to its group. Whatever moves it on, the other groups of the collection keep
their rings and the replicas of their shards. -/
namespace ShardCluster
open SortedMap

namespace Face
variable {F F' : Face} {w : Wake} {coll coll' : Collection} {op op' : Option Operation} {l l' : Layout}
  {key : Option ShardKey} {r r' : Router} {name : String} {entry : Entry}

/-- Only the group with the key changes, and only replicas of its shards. -/
structure Confined (F F' : Face) (key : Option ShardKey) : Prop where
  groups : ∀ k r, k ≠ key → (F'.Group k r ↔ F.Group k r)
  look : ∀ q p, F'.look q p ≠ F.look q p → ∃ r, (F.Group key r ∨ F'.Group key r) ∧ q ∈ r.shards
  others : ∀ k r, k ≠ key → F.Group k r → ∀ q ∈ r.shards, ∀ p, F'.look q p = F.look q p

/-- The rings of one group are replaced, and some replicas of that group. -/
theorem Confined.setRouter (hf : Fits ⟨some coll, op, l⟩) (hr : coll.router key = .ok r)
    (hg : coll'.groups = coll.groups.insert key r') (hl : ∀ q p, l' q p ≠ l q p → q ∈ r.shards) :
    Confined ⟨some coll, op, l⟩ ⟨some coll', op', l'⟩ key where
  groups k x hk := by rw [group_some, group_some, hg, get?_insert_of_ne hk]
  look q p hne := ⟨r, .inl (group_some.2 (Collection.router_eq_ok.1 hr).2), hl q p hne⟩
  others k x hk hx q hq p := by
    by_contra hne
    exact hk (hf.apart hx (group_some.2 (Collection.router_eq_ok.1 hr).2) hq (hl q p hne))

theorem Confined.of_rollsBack {o : Operation} (hf : F.Fits) (ho : F.operation = some o)
    (h : RollsBack F w F') : F.Confined F' o.key := by
  cases h with
  | @up coll op l r hr hd =>
    obtain rfl := Option.some.inj ho
    refine .setRouter hf hr rfl fun q p hne => ?_
    by_cases hq : q = op.shard
    · exact hq ▸ (hf.agrees.follows hr).shard_mem
    · simp [Layout.without, hq] at hne
  | @down coll op l r hr hd =>
    obtain rfl := Option.some.inj ho
    refine .setRouter hf hr rfl fun q p hne => ?_
    by_contra hq
    simp [Layout.settled, hq] at hne

/-- A plan that fills no shard of another group. -/
def Encloses (F : Face) (plan : Plan) : Prop :=
  ∀ k r, k ≠ plan.operation.key → F.Group k r →
    (plan.operation.direction = .up → plan.operation.shard ∉ r.shards) ∧
    (plan.operation.direction = .down → ∀ t ∈ plan.transfers, t.key.toShard ∉ r.shards)

/-- Entries that move a live operation on, among them the reports of its transfers. -/
def Drives (F : Face) (name : String) : Entry → Prop
  | .commitRead n | .commitWrite n | .finishResharding n | .abortResharding n _ _ => n = name
  | .finishTransfer n key _ | .failTransfer n key _ _ =>
    n = name ∧ ∃ t ∈ F.transfers, t.key = key ∧ t.resharding = true
  | _ => False

/-- Entries that have to do with an operation on the group with the key. -/
inductive Concerns (F : Face) (name : String) : Option ShardKey → Entry → Prop
  | start {plan : Plan} (hn : plan.operation.collection = name) (hs : F.Encloses plan) :
      Concerns F name plan.operation.key (.startResharding plan)
  | drive {op : Operation} {entry : Entry} (ho : F.operation = some op) (hd : F.Drives name entry) :
      Concerns F name op.key entry

namespace Confined
variable {epoch : UInt64}

theorem of_started {plan : Plan} (h : F.Fits) (hi : F.operation = none) (hs : F.Encloses plan)
    (hc : Change name epoch (.startResharding plan) F w F') : F.Confined F' plan.operation.key := by
  cases hc with
  | rolledBack hb =>
    obtain ⟨op, ho⟩ := hb.operation.1
    rw [hi] at ho
    cases ho
  | discarded he => obtain ⟨_, he⟩ | he := he <;> cases he
  | @started coll l _ r r' hn ht hr hr' hl =>
    have hkept : ∀ k x, k ≠ plan.operation.key → Face.Group ⟨some coll, none, l⟩ k x →
        ∀ q ∈ x.shards, ∀ p, l.claimed plan.operation plan.transfers q p = l q p := by
      intro k x hk hx q hq p
      obtain ⟨hup, hdown⟩ := hs k x hk hx
      cases hd : plan.operation.direction with
      | up =>
        rw [Layout.claimed, hd]
        exact if_neg (by rintro ⟨rfl, -⟩; exact hup hd hq)
      | down =>
        rw [Layout.claimed, hd]
        refine if_neg fun hx => ?_
        obtain ⟨t, ht, hdest⟩ := List.mem_map.1 hx
        exact hdown hd t ht ((Prod.mk.inj hdest).1 ▸ hq)
    refine ⟨fun k x hk => ?_, fun q p hne => ?_, hkept⟩
    · rw [group_some, group_some]
      exact iff_of_eq (congrArg (· = some x) (get?_insert_of_ne hk _ _))
    · cases hd : plan.operation.direction with
      | up =>
        have hq : q = plan.operation.shard := by
          by_contra hq
          refine hne ?_
          rw [Layout.claimed, hd]
          exact if_neg fun hx => hq hx.1
        have hfollows : r'.Follows { plan.operation with stage := .starting } :=
          (h.agrees.rests (Collection.router_eq_ok.1 hr).2).start hr' rfl
        exact ⟨r', .inr (group_some.2 (get?_insert_self _ _ _)), hq ▸ hfollows.shard_mem⟩
      | down =>
        -- what is marked was a replica, of a shard of some group, and that is no other one
        have hdest : (q, p) ∈ plan.transfers.map (·.key.destination) := by
          by_contra hq
          refine hne ?_
          rw [Layout.claimed, hd]
          exact if_neg hq
        obtain ⟨t, ht, hdest⟩ := List.mem_map.1 hdest
        obtain ⟨rfl, rfl⟩ := Prod.mk.inj hdest
        obtain ⟨k, x, hx, hq⟩ := Collection.contains_shardSet.1 ((h.fit coll rfl).housed _ _ (hl hd t ht))
        by_cases hk : k = plan.operation.key
        · exact ⟨x, .inl (group_some.2 (hk ▸ hx)), hq⟩
        · exact (hne (hkept k x hk (group_some.2 hx) _ hq _)).elim

theorem of_driven {o : Operation} (h : F.Fits) (ho : F.operation = some o) (hd : F.Drives name entry)
    (hc : Change name epoch entry F w F') : F.Confined F' o.key := by
  have hslice : ∀ coll, F.collection = some coll → ∀ t ∈ coll.transfers,
      (∃ t' ∈ F.transfers, t'.key = t.key ∧ t'.resharding = true) → t.resharding = true := by
    intro coll hcoll t ht hx
    obtain ⟨t', ht', hk, hm⟩ := hx
    rw [Face.transfers, hcoll] at ht'
    exact List.inj_on_of_nodup_map (h.fit coll hcoll).keys ht' ht hk ▸ hm
  cases hc with
  | readCommitted hs hr hr' =>
    obtain rfl := Option.some.inj ho
    exact setRouter h hr rfl fun q p hne => (hne rfl).elim
  | writeCommitted hs hr hr' =>
    obtain rfl := Option.some.inj ho
    exact setRouter h hr rfl fun q p hne => (hne rfl).elim
  | finishedUp hs hr hr' =>
    obtain rfl := Option.some.inj ho
    refine setRouter h hr rfl fun q p hne => ?_
    by_contra hq
    simp [Layout.settled, hq] at hne
  | @finishedDown coll op l r r' hs hr hr' =>
    obtain rfl := Option.some.inj ho
    refine setRouter h hr rfl fun q p hne => ?_
    by_cases hq : q = op.shard
    · exact hq ▸ (h.agrees.follows hr).shard_mem
    · by_contra hq'
      simp [Layout.without, Layout.settled, hq, hq'] at hne
  | rolledBack hb => exact of_rollsBack h ho hb
  | @sliced coll op l t transfers next starts ht hs hr hn hw =>
    exact ⟨fun k r _ => by rw [group_some, group_some], fun q p hne => (hne rfl).elim,
      fun _ _ _ _ _ _ _ => rfl⟩
  | @copied coll op l t ht hs hr =>
    have hx := hslice coll rfl t ht hd.2
    rw [hr] at hx
    cases hx
  | @discarded entry coll op l t he ht hr =>
    obtain ⟨reason, rfl⟩ | rfl := he
    · have hx := hslice coll rfl t ht hd.2
      rw [hr] at hx
      cases hx
    · exact hd.elim
  | unclaimed => cases ho
  | _ => exact hd.elim

end Confined
end Face

namespace Cluster
variable {c c' : Cluster} {name : String} {entry : Entry} {e : Effects} {key : Option ShardKey}
  {request : ReshardingRequest} {policy : RemovalPolicy} {now : Timestamp} {plan : Plan}

/-- An operation keeps to its group, however it goes on. -/
theorem confined_of_apply (hc : Reached Planned c) (hm : (c.face name).Concerns name key entry)
    (h : c.apply entry = .ok (c', e)) : (c.face name).Confined (c'.face name) key := by
  have hs := hc.sound
  have hf := hc.fits name
  cases hm with
  | @start plan hn hencl =>
    subst hn
    have hidle : c.operation? plan.operation.collection = none := by
      by_contra ho
      exact not_started (Option.isSome_iff_ne_none.2 ho) h plan rfl rfl
    exact .of_started hf hidle hencl (startResharding_touched h).change
  | @drive op entry ho hd =>
    have hchange : Change name (c.epoch + 1) entry (c.face name) (e.wake name) (c'.face name) := by
      cases entry with
      | commitRead =>
        obtain rfl := hd
        exact (commitRead_touched hs h).change
      | commitWrite =>
        obtain rfl := hd
        exact (commitWrite_touched hs h).change
      | finishResharding =>
        obtain rfl := hd
        exact (finishResharding_touched h).change
      | abortResharding =>
        obtain rfl := hd
        exact .rolledBack (abortResharding_touched h).change
      | finishTransfer =>
        obtain rfl := hd.1
        exact (finishTransfer_touched hs h).change
      | failTransfer =>
        obtain rfl := hd.1
        exact (failTransfer_touched hs h).change
      | _ => exact hd.elim
    exact .of_driven hf ho hd hchange

/-- Plans made for the cluster fill no shard of another group. -/
theorem encloses_of_plan (hc : Reached Planned c) (hp : c.plan name request policy now = .ok plan) :
    (c.face name).Encloses plan := by
  obtain ⟨coll, r, b⟩ := Opens.of_plan hc hp
  rw [b.face]
  intro k x hk hx
  have hx := Face.group_some.1 hx
  refine ⟨fun hd hq => ?_, fun hd t ht hq => ?_⟩
  · have hin := Fit.shardSet_of_group hx hq
    rw [(b.fits.up hd).1] at hin
    cases hin
  · obtain ⟨-, -, hin, -⟩ := (b.fits.down hd).2.1 t ht
    exact hk (b.fit.parted.apart hx (Collection.router_eq_ok.1 b.router).2 hq hin)

end Cluster
end ShardCluster
