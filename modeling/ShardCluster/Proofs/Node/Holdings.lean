import ShardCluster.Proofs.Cluster.ReadyChange
import ShardCluster.Proofs.Copy.Turn
/-! What the replicas of one collection hold. No replica holds a point that is not as it was last
written, and what a replica misses is still ahead of the copy that fills it. -/
namespace ShardCluster
open SortedMap

/-- The points and the copies of one collection, and the payloads of the accepted writes. -/
structure Holdings where
  held : ShardId → PeerId → PointId → Option Bytes
  copies : Task → Prop
  written : Option ShardKey → PointId → Option Bytes

/-- A copy of the transfer is past the point. -/
def Holdings.Passed (D : Holdings) (k : TransferKey) (id : PointId) : Prop :=
  ∃ T, D.copies T ∧ T.request.key = k ∧ ¬T.Ahead id

namespace Face

def Knows (F : Face) (key : Option ShardKey) : Prop :=
  ∃ coll r, F.collection = some coll ∧ coll.router key = .ok r

theorem Knows.group {F : Face} {key : Option ShardKey} (h : F.Knows key) : ∃ r, F.Group key r := by
  obtain ⟨coll, r, hc, hr⟩ := h
  exact ⟨r, coll, hc, (Collection.router_eq_ok.1 hr).2⟩

/-- A running transfer stands behind the copy. -/
def Backs (F : Face) (c : CopyRequest) : Prop :=
  ∃ t ∈ F.transfers, t.key = c.key ∧ t.epoch = c.epoch ∧ t.status = .running ∧
    (t.resharding = false ∧ c.slice = none ∨ t.resharding = true ∧ ∃ o r,
      F.operation = some o ∧ F.Group o.key r ∧ c.slice = some (r.targetSlice t.key.toShard))

structure Keeps (F : Face) (D : Holdings) : Prop where
  known : ∀ key id x, D.written key id = some x → F.Knows key
  placed : ∀ q p id, F.look q p = none → D.held q p id = none
  current : ∀ key r q p id x, F.Group key r → q ∈ r.shards → D.held q p id = some x →
    D.written key id = some x ∧ r.Serves id q
  complete : ∀ key r q p id x, F.Group key r → r.Serves id q → (F.look q p).isSome →
    D.written key id = some x → D.held q p id = some x ∨ ∃ t ∈ F.transfers,
      t.key.destination = (q, p) ∧ r.routeOld id = some t.key.shard ∧ ¬D.Passed t.key id
  copies : ∀ T, D.copies T → T.Rests ∧ F.Backs T.request

end Face

/-- The wake of a change takes the holdings from `D` to `D'`. Writes to groups that are gone are
forgotten. -/
structure Wake.Carries (w : Wake) (F' : Face) (D D' : Holdings) : Prop where
  wiped : ∀ q p id, w.wipes q p id → D'.held q p id = none
  kept : ∀ q p id, ¬w.wipes q p id → D'.held q p id = D.held q p id
  copies : ∀ T, D'.copies T → D.copies T ∧ ¬w.ends T.request.key ∨
    ∃ c ∈ w.starts, ∃ config, T = { request := c, config }
  written : ∀ key id x, D'.written key id = some x ↔ D.written key id = some x ∧ F'.Knows key

theorem Wake.Carries.passed {w : Wake} {F' : Face} {D D' : Holdings} (h : w.Carries F' D D')
    {k : TransferKey} {id : PointId} (hp : D'.Passed k id) : D.Passed k id := by
  obtain ⟨T, hT, hk, ha⟩ := hp
  obtain ⟨hT, -⟩ | ⟨c, -, config, rfl⟩ := h.copies T hT
  · exact ⟨T, hT, hk, ha⟩
  · exact absurd (Task.fresh_ahead c config id) ha

/-- What a change must do for the replicas and the copies. -/
structure Face.Conveys (F : Face) (D : Holdings) (w : Wake) (F' : Face) : Prop where
  config : ∀ coll coll', F.collection = some coll → F'.collection = some coll' →
    coll'.config = coll.config
  placed : ∀ q p, F'.look q p = none → F.look q p = none ∨ ∀ id, w.wipes q p id
  /-- A replica holds what it held, as far as the rings still give it that. -/
  current : ∀ key r' q, F'.Group key r' → q ∈ r'.shards → (∀ p, F.look q p = none) ∨
    ∃ r, F.Group key r ∧ q ∈ r.shards ∧
      ∀ p id, (F.look q p).isSome → ¬w.wipes q p id → r.Serves id q → r'.Serves id q
  /-- What the rings give a replica is there, or a transfer is to bring it. -/
  complete : ∀ key r r' q p id, F.Group key r → F'.Group key r' → r'.Serves id q →
    (F'.look q p).isSome →
    (∃ t ∈ F'.transfers, t.key.destination = (q, p) ∧ r'.routeOld id = some t.key.shard ∧
      ¬D.Passed t.key id) ∨
    (r.Serves id q ∧ (F.look q p).isSome ∧ ¬w.wipes q p id ∧
      ∀ t ∈ F.transfers, t.key.destination = (q, p) → r.routeOld id = some t.key.shard →
        ¬D.Passed t.key id → r'.routeOld id = some t.key.shard ∧ ∃ t' ∈ F'.transfers, t'.key = t.key)
  backs : ∀ c, F.Backs c → ¬w.ends c.key → F'.Backs c
  starts : ∀ c ∈ w.starts, F'.Backs c

namespace Face
variable {F F' : Face} {D D' : Holdings} {w : Wake}

theorem Keeps.carried (h : F.Keeps D) (hc : F.Conveys D w F') (hw : w.Carries F' D D') :
    F'.Keeps D' where
  known key id x hx := ((hw.written key id x).1 hx).2
  placed q p id hl := by
    by_cases hwipe : w.wipes q p id
    · exact hw.wiped q p id hwipe
    · rw [hw.kept q p id hwipe]
      obtain hl | hall := hc.placed q p hl
      · exact h.placed q p id hl
      · exact absurd (hall id) hwipe
  current key r' q p id x hg hq hx := by
    have hwipe : ¬w.wipes q p id := fun hwipe => by
      rw [hw.wiped q p id hwipe] at hx
      cases hx
    rw [hw.kept q p id hwipe] at hx
    have hsome : (F.look q p).isSome := by
      cases hl : F.look q p with
      | none =>
        rw [h.placed q p id hl] at hx
        cases hx
      | some s => rfl
    obtain hnone | ⟨r, hr, hq, hs⟩ := hc.current key r' q hg hq
    · rw [hnone p] at hsome
      cases hsome
    · obtain ⟨hx, hserves⟩ := h.current key r q p id x hr hq hx
      refine ⟨(hw.written key id x).2 ⟨hx, ?_⟩, hs p id hsome hwipe hserves⟩
      obtain ⟨coll, _, hcoll, hrouter⟩ := h.known key id x hx
      obtain ⟨coll', hcoll', hg⟩ := hg
      refine ⟨coll', r', hcoll', Collection.router_eq_ok.2 ⟨?_, hg⟩⟩
      simpa [Collection.checkKey, hc.config coll coll' hcoll hcoll'] using
        (Collection.router_eq_ok.1 hrouter).1
  complete key r' q p id x hg hs hl hx := by
    have hx := ((hw.written key id x).1 hx).1
    obtain ⟨r, hr⟩ := (h.known key id x hx).group
    obtain ⟨t, ht, hd, ho, hp⟩ | ⟨hs, hl, hwipe, hstay⟩ := hc.complete key r r' q p id hr hg hs hl
    · exact .inr ⟨t, ht, hd, ho, fun hp' => hp (hw.passed hp')⟩
    · obtain hx | ⟨t, ht, hd, ho, hp⟩ := h.complete key r q p id x hr hs hl hx
      · exact .inl ((hw.kept q p id hwipe).trans hx)
      · obtain ⟨ho, t', ht', hk⟩ := hstay t ht hd ho hp
        rw [← hk] at hd ho hp
        exact .inr ⟨t', ht', hd, ho, fun hp' => hp (hw.passed hp')⟩
  copies T hT := by
    obtain ⟨hT, hend⟩ | ⟨c, hin, config, rfl⟩ := hw.copies T hT
    · obtain ⟨hr, hb⟩ := h.copies T hT
      exact ⟨hr, hc.backs _ hb hend⟩
    · exact ⟨.inl rfl, hc.starts c hin⟩

section
variable {coll coll' : Collection} {op op' : Option Operation} {l l' : Layout}
  {key : Option ShardKey} {r r' : Router}

/-- The groups stay as they are. -/
theorem Conveys.of_groups (hg : coll'.groups = coll.groups) (hc : coll'.config = coll.config)
    (placed : ∀ q p, l' q p = none → l q p = none ∨ ∀ id, w.wipes q p id)
    (complete : ∀ key r q p id, coll.groups.get? key = some r → r.Serves id q → (l' q p).isSome →
      (∃ t ∈ coll'.transfers, t.key.destination = (q, p) ∧ r.routeOld id = some t.key.shard ∧
        ¬D.Passed t.key id) ∨
      ((l q p).isSome ∧ ¬w.wipes q p id ∧ ∀ t ∈ coll.transfers, t.key.destination = (q, p) →
        ¬D.Passed t.key id → ∃ t' ∈ coll'.transfers, t'.key = t.key))
    (backs : ∀ c, Backs ⟨some coll, op, l⟩ c → ¬w.ends c.key → Backs ⟨some coll', op', l'⟩ c)
    (starts : ∀ c ∈ w.starts, Backs ⟨some coll', op', l'⟩ c) :
    Conveys ⟨some coll, op, l⟩ D w ⟨some coll', op', l'⟩ where
  config _ _ h h' := by
    obtain rfl := Option.some.inj h
    obtain rfl := Option.some.inj h'
    exact hc
  placed := placed
  current key r q hr hq := by
    have hr : coll.groups.get? key = some r := hg ▸ group_some.1 hr
    exact .inr ⟨r, group_some.2 hr, hq, fun _ _ _ _ hs => hs⟩
  complete key r r' q p id hr hr' hs hl := by
    have hr := group_some.1 hr
    have hr' : coll.groups.get? key = some r' := hg ▸ group_some.1 hr'
    obtain rfl := Option.some.inj (hr.symm.trans hr')
    obtain ht | ⟨hl, hw, hstay⟩ := complete key r q p id hr hs hl
    · exact .inl ht
    · exact .inr ⟨hs, hl, hw, fun t ht hd ho hp => ⟨ho, hstay t ht hd hp⟩⟩
  backs := backs
  starts := starts

/-- One group gets new rings; nothing of the others changes. -/
theorem Conveys.of_insert (htended : Tended ⟨some coll, op, l⟩) (hp : Parted coll.groups)
    (hr : coll.groups.get? key = some r) (hg : coll'.groups = coll.groups.insert key r')
    (hc : coll'.config = coll.config)
    (placed : ∀ q p, l' q p = none → l q p = none ∨ ∀ id, w.wipes q p id)
    (others : ∀ q p, coll.shardSet.contains q = true → q ∉ r.shards →
      l' q p = l q p ∧ ∀ id, ¬w.wipes q p id)
    (into : ∀ t ∈ coll.transfers, t.key.toShard ∈ r.shards)
    (current : ∀ q ∈ r'.shards, (∀ p, l q p = none) ∨ q ∈ r.shards ∧
      ∀ p id, (l q p).isSome → ¬w.wipes q p id → r.Serves id q → r'.Serves id q)
    (complete : ∀ q p id, r'.Serves id q → (l' q p).isSome →
      (∃ t ∈ coll'.transfers, t.key.destination = (q, p) ∧ r'.routeOld id = some t.key.shard ∧
        ¬D.Passed t.key id) ∨
      (r.Serves id q ∧ (l q p).isSome ∧ ¬w.wipes q p id ∧ ∀ t ∈ coll.transfers,
        t.key.destination = (q, p) → r.routeOld id = some t.key.shard → ¬D.Passed t.key id →
          r'.routeOld id = some t.key.shard ∧ ∃ t' ∈ coll'.transfers, t'.key = t.key))
    (backs : ∀ c, Backs ⟨some coll, op, l⟩ c → ¬w.ends c.key → Backs ⟨some coll', op', l'⟩ c)
    (starts : ∀ c ∈ w.starts, Backs ⟨some coll', op', l'⟩ c) :
    Conveys ⟨some coll, op, l⟩ D w ⟨some coll', op', l'⟩ where
  config _ _ h h' := by
    obtain rfl := Option.some.inj h
    obtain rfl := Option.some.inj h'
    exact hc
  placed := placed
  current key' x q hx hq := by
    have hx : coll'.groups.get? key' = some x := group_some.1 hx
    rw [hg, get?_insert] at hx
    split at hx
    · rename_i hk
      obtain rfl := Option.some.inj hx
      exact (current q hq).imp id fun h => ⟨r, group_some.2 (hk ▸ hr), h⟩
    · exact .inr ⟨x, group_some.2 hx, hq, fun _ _ _ _ hs => hs⟩
  complete key' y x q p id hy hx hs hl := by
    have hy : coll.groups.get? key' = some y := group_some.1 hy
    have hx : coll'.groups.get? key' = some x := group_some.1 hx
    rw [hg, get?_insert] at hx
    split at hx
    · rename_i hk
      obtain rfl := Option.some.inj hx
      obtain rfl := Option.some.inj (hr.symm.trans (hk ▸ hy))
      exact complete q p id hs hl
    · rename_i hk
      obtain rfl := Option.some.inj (hy.symm.trans hx)
      have hq := (htended.even key' y (group_some.2 hy)).mem_shards hs
      have hout : q ∉ r.shards := fun hin => hk (hp.apart hy hr hq hin)
      obtain ⟨hsame, hwipe⟩ := others q p (Fit.shardSet_of_group hy hq) hout
      have hl : (l' q p).isSome := hl
      rw [hsame] at hl
      refine .inr ⟨hs, hl, hwipe id, fun t ht hd => ?_⟩
      exact absurd ((Prod.mk.inj hd).1 ▸ into t ht) hout
  backs := backs
  starts := starts

end
end Face
end ShardCluster
