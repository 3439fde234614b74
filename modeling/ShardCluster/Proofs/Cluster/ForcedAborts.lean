import ShardCluster.Proofs.Cluster.Ready
import ShardCluster.Proofs.Cluster.Rollback
/-! Before a part of the cluster is deleted, every live operation that needs it is given up. That
never fails, and other operations do not notice. -/
namespace ShardCluster
open SortedMap

/-- What a rollback makes of the replicas that were being filled. -/
def Layout.undone (l : Layout) (d : Direction) : Layout := fun q p =>
  if l q p = some .resharding then
    match d with
    | .up => .none
    | .down => some .active
  else l q p

section
variable {l : Layout} {q : ShardId} {p : PeerId}

theorem Layout.undone_up (h : l q p = some .resharding) : l.undone .up q p = .none := by
  simp [undone, h]

theorem Layout.undone_down (h : l q p = some .resharding) : l.undone .down q p = some .active := by
  simp [undone, h]

theorem Layout.undone_of_ne (h : l q p ≠ some .resharding) (d : Direction) :
    l.undone d q p = l q p := by
  simp [undone, h]

end

/-- The replica that comes is the only one of its shard. -/
theorem Layout.Filled.without {l : Layout} {o : Operation} {r : Router} (h : l.Filled o r)
    (hd : o.direction = .up) : l.without [o.shard] = l.undone o.direction := by
  funext q p
  by_cases hres : l q p = some .resharding
  · obtain ⟨rfl, rfl⟩ := (h.up hd q p).1 hres
    simp [Layout.without, Layout.undone, hres, hd]
  · by_cases hq : q = o.shard
    · have hp : p ≠ o.peer := fun hp => hres ((h.up hd q p).2 ⟨hq, hp⟩)
      subst hq
      simp [Layout.without, Layout.undone, h.alone hd p hp]
    · simp [Layout.without, Layout.undone, hq, hres]

theorem Face.Fits.undone {coll : Collection} {o : Operation} {l : Layout} {F' : Face} {w : Wake}
    (hf : Fits ⟨some coll, some o, l⟩) (hb : RollsBack ⟨some coll, some o, l⟩ w F') :
    ∃ r, coll.router o.key = .ok r ∧
      F' = ⟨some (({ coll with transfers := [] } : Collection).setRouter o.key r.abort), none,
        l.undone o.direction⟩ := by
  have hfit := hf.fit coll rfl
  have htaken : ∀ {r : Router}, coll.router o.key = .ok r →
      (coll.take (·.resharding)).1 = { coll with transfers := [] } := fun hr => by
    simpa [Collection.take] using hfit.take_slices hr
  cases hb with
  | up hr hd =>
    obtain ⟨hfill, -, -⟩ := hfit.live o _ rfl hr
    exact ⟨_, hr, by rw [htaken hr, hfill.without hd]⟩
  | @down _ _ _ r hr hd =>
    refine ⟨r, hr, ?_⟩
    have hsettled : l.settled r.shards = l.undone o.direction := by
      funext q p
      by_cases hres : l q p = some .resharding
      · have hq : q ∈ r.shards := hfit.resharding_mem hr (hf.agrees.follows hr) hres
        simp [Layout.settled, Layout.undone, hres, hq, hd]
      · simp [Layout.settled, Layout.undone, hres]
    rw [htaken hr, hsettled]

namespace Cluster
variable {c c' : Cluster} {name : String} {e : Effects} {event : TopologyEvent}

/-- The operation needs what the event takes away: its collection, its group, or a peer that it
moves points of. -/
def Hits (c : Cluster) (event : TopologyEvent) (op : Operation) : Prop :=
  match event with
  | .collectionDeleted name => op.collection = name
  | .shardKeyDeleted name key => op.collection = name ∧ op.key = some key
  | .peerRemoved peer _ => op.peer = peer ∨
      (∃ q, c.replicas.state op.collection q peer = .ok .resharding) ∨
      ∃ t ∈ c.transfers op.collection, t.resharding = true ∧ t.key.involves peer = true

theorem mem_affected (hs : c.Sound) {n : String} :
    n ∈ c.affected event ↔ ∃ op, c.operation? n = some op ∧ c.Hits event op := by
  cases event with
  | collectionDeleted name =>
    simp only [affected, Hits, Option.mem_toList, Option.map_eq_some_iff]
    constructor
    · intro h
      obtain ⟨op, ho, rfl⟩ := h
      obtain rfl := (hs.named name op ho).1
      exact ⟨op, ho, rfl⟩
    · intro h
      obtain ⟨op, ho, rfl⟩ := h
      obtain rfl := (hs.named n op ho).1
      exact ⟨op, ho, rfl⟩
  | shardKeyDeleted name key =>
    simp only [affected, Hits, Option.mem_toList, Option.map_eq_some_iff, Option.filter_eq_some_iff,
      beq_iff_eq]
    constructor
    · intro h
      obtain ⟨op, ⟨ho, hk⟩, rfl⟩ := h
      obtain rfl := (hs.named name op ho).1
      exact ⟨op, ho, rfl, hk⟩
    · intro h
      obtain ⟨op, ho, rfl, hk⟩ := h
      obtain rfl := (hs.named n op ho).1
      exact ⟨op, ⟨ho, hk⟩, rfl⟩
  | peerRemoved peer force =>
    simp only [affected, Hits, List.mem_map, List.mem_filter, mem_values, dependsOn_iff,
      ReplicaTable.state_eq_ok]
    constructor
    · intro h
      obtain ⟨op, ⟨⟨n', ho⟩, hdep⟩, rfl⟩ := h
      obtain rfl := (hs.named n' op ho).1
      exact ⟨op, ho, hdep⟩
    · intro h
      obtain ⟨op, ho, hdep⟩ := h
      exact ⟨op, ⟨⟨n, ho⟩, hdep⟩, (hs.named n op ho).1⟩

/-- No collection is listed twice. -/
theorem affected_nodup (hs : c.Sound) (event : TopologyEvent) : (c.affected event).Nodup := by
  have hlone : ∀ o : Option String, o.toList.Nodup := fun o => by cases o <;> simp
  cases event with
  | collectionDeleted name => exact hlone _
  | shardKeyDeleted name key => exact hlone _
  | peerRemoved peer force =>
    have hkeys : c.operations.values.map (·.collection) = c.operations.keys := by
      simp only [SortedMap.values, SortedMap.keys, List.map_map]
      refine List.map_congr_left fun x hx => ?_
      exact (hs.named x.1 x.2 (mem_entries.1 hx)).1
    have hnodup := keys_nodup c.operations
    rw [← hkeys] at hnodup
    exact hnodup.sublist (List.filter_sublist.map _)

/-- An event of a collection ends at most the operation of that collection. -/
theorem affected_own (hs : c.Sound) (he : event.collection? = some name) :
    c.affected event = [] ∨ c.affected event = [name] := by
  have honly : c.affected event ⊆ [name] := by
    intro n hn
    obtain ⟨op, ho, hh⟩ := (mem_affected hs).1 hn
    have hname : op.collection = name := by
      cases event with
      | collectionDeleted => exact hh.trans (Option.some.inj he)
      | shardKeyDeleted => exact hh.1.trans (Option.some.inj he)
      | peerRemoved => cases he
    rw [List.mem_singleton, ← hname, (hs.named n op ho).1]
  obtain ⟨k, hk⟩ := List.subset_singleton_iff.1 honly
  have hle : k ≤ 1 := List.nodup_replicate.1 (hk ▸ affected_nodup hs event)
  obtain rfl | rfl : k = 0 ∨ k = 1 := by omega
  · exact .inl hk
  · exact .inr hk

theorem rollBack_aborted {op : Operation} {forced : Bool} {reason : String}
    (ho : c.operations.get? name = some op) (h : c.rollBack name forced reason = .ok (c', e)) :
    e.aborted = [⟨op, forced, reason⟩] := by
  obtain ⟨_, _, _, _, -, -, -, rfl, ⟨-, _, -, rfl⟩ | ⟨-, _, -, rfl⟩⟩ := rollBack_cases ho h
  · rfl
  · rfl

/-- What rollbacks leave alone, and what they report. -/
structure Reported (reason : String) (names : List String) (c : Cluster) (e : Effects)
    (c' : Cluster) : Prop where
  peers : c'.peers = c.peers
  ringPositions : c'.ringPositions = c.ringPositions
  home : c'.replicas.home = c.replicas.home
  aborted : e.aborted = names.filterMap (fun n => (c.operations.get? n).map (⟨·, true, reason⟩))

theorem rollBackAll_reported {reason : String} {names : List String} (hn : names.Nodup)
    (h : c.rollBackAll reason names = .ok (c', e)) : Reported reason names c e c' := by
  induction names generalizing c e with
  | nil =>
    obtain ⟨rfl, rfl⟩ : c = c' ∧ {} = e := by simpa [rollBackAll] using h
    exact ⟨rfl, rfl, rfl, rfl⟩
  | cons name rest ih =>
    obtain ⟨hfresh, hrest⟩ := List.nodup_cons.1 hn
    simp only [rollBackAll, bind_eq_ok, pure_eq_ok, Prod.mk.injEq] at h
    obtain ⟨⟨c₁, e₁⟩, hroll, ⟨c₂, e₂⟩, hmore, rfl, rfl⟩ := h
    obtain ⟨hpeers, hpositions, hhome, haborted⟩ := ih hrest hmore
    have hboth : (e₁ ++ e₂).aborted = e₁.aborted ++ e₂.aborted := rfl
    cases ho : c.operations.get? name with
    | none =>
      obtain ⟨rfl, rfl⟩ : c = c₁ ∧ {} = e₁ := by
        simpa using (rollBack_none ho true reason).symm.trans hroll
      refine ⟨hpeers, hpositions, hhome, ?_⟩
      rw [hboth, haborted, List.filterMap_cons_none (by simp [ho])]
      rfl
    | some op =>
      have ht := rollBack_touched ho hroll
      have hkept := ht.kept
      refine ⟨hpeers.trans hkept.peers, hpositions.trans hkept.ringPositions, hhome.trans hkept.home, ?_⟩
      have hlater : ∀ n ∈ rest, c₁.operations.get? n = c.operations.get? n := fun n hin =>
        congrArg Face.operation (ht.face_of_ne fun he => hfresh (he ▸ hin))
      rw [hboth, haborted, rollBack_aborted ho hroll,
        List.filterMap_cons_some (b := ⟨op, true, reason⟩) (by simp [ho]), List.singleton_append]
      exact congrArg _ (List.filterMap_congr fun n hin => by rw [hlater n hin])

/-- Rollbacks never fail. -/
theorem rollBackAll_ok (hs : c.Sound) (ha : ∀ n, (c.face n).Agrees) (reason : String)
    (names : List String) : ∃ c' e, c.rollBackAll reason names = .ok (c', e) := by
  induction names generalizing c with
  | nil => exact ⟨c, {}, rfl⟩
  | cons name rest ih =>
    simp only [rollBackAll, bind_eq_ok, pure_eq_ok, Prod.mk.injEq]
    cases ho : c.operations.get? name with
    | none =>
      obtain ⟨c', e, hrest⟩ := ih hs ha
      exact ⟨_, _, _, rollBack_none ho true reason, _, hrest, rfl, rfl⟩
    | some op =>
      obtain ⟨⟨c₁, e₁⟩, hroll⟩ := rollBack_ok hs (ha name) ho true reason
      have ht := rollBack_touched ho hroll
      have ha₁ : ∀ n, (c₁.face n).Agrees := by
        intro n
        by_cases hn : n = name
        · exact hn ▸ (ha name).rollsBack ht.change
        · exact ht.face_of_ne hn ▸ ha n
      obtain ⟨c', e, hrest⟩ := ih (ht.sound hs ht.change.collection.1) ha₁
      exact ⟨_, _, _, hroll, _, hrest, rfl, rfl⟩

/-- The operations that an event hits are given up, and nothing else changes. -/
structure Yielded (c : Cluster) (event : TopologyEvent) (e : Effects) (c' : Cluster) : Prop where
  sound : c'.Sound
  fits : ∀ n, (c'.face n).Fits
  peers : c'.peers = c.peers
  epoch : c'.epoch = c.epoch
  ringPositions : c'.ringPositions = c.ringPositions
  home : c'.replicas.home = c.replicas.home
  once : e.aborted.Nodup
  aborted : ∀ a, a ∈ e.aborted ↔ a.forced = true ∧
    a.reason = (Error.topologyConflict event.describe).message ∧
    ∃ n, c.operation? n = some a.operation ∧ c.Hits event a.operation
  spared : ∀ n, (∀ op, c.operation? n = some op → ¬c.Hits event op) → c'.face n = c.face n
  undone : ∀ n op, c.operation? n = some op → c.Hits event op → ∃ coll r,
    c.collections.get? n = some coll ∧ coll.router op.key = .ok r ∧
    c'.face n = ⟨some (({ coll with transfers := [] } : Collection).setRouter op.key r.abort), none,
      (c.replicas.look n).undone op.direction⟩

theorem forceAborts_yielded (hc : Reached Planned c) (h : c.forceAborts event = .ok (c', e)) :
    Yielded c event e c' := by
  have hs := hc.sound
  have hroll := rollBackAll_rollbacks hs h
  have hreported := rollBackAll_reported (affected_nodup hs event) h
  have hhit : ∀ n op, c.operation? n = some op → c.Hits event op →
      RollsBack (c.face n) (e.wake n) (c'.face n) := by
    intro n op ho hh
    obtain ⟨hsame, -⟩ | ⟨-, hb⟩ := hroll.changes n
    · have hidle := hroll.idle n ((mem_affected hs).2 ⟨op, ho, hh⟩)
      rw [hsame] at hidle
      cases hidle.symm.trans ho
    · exact hb
  have hmem : ∀ a, a ∈ e.aborted ↔ ∃ n ∈ c.affected event, ∃ op, c.operations.get? n = some op ∧
      ⟨op, true, (Error.topologyConflict event.describe).message⟩ = a := by
    intro a
    simp only [hreported.aborted, List.mem_filterMap, Option.map_eq_some_iff]
  refine ⟨hroll.sound, fun n => ?_, hreported.peers, hroll.epoch, hreported.ringPositions,
    hreported.home, ?_, fun a => ?_, fun n hn => ?_, fun n op ho hh => ?_⟩
  · obtain ⟨hsame, -⟩ | ⟨-, hb⟩ := hroll.changes n
    · exact hsame ▸ hc.fits n
    · exact (hc.fits n).rollsBack hb
  · rw [hreported.aborted]
    refine (affected_nodup hs event).filterMap fun n m a hn hm => ?_
    obtain ⟨op, ho, rfl⟩ := Option.map_eq_some_iff.1 hn
    obtain ⟨op', ho', he⟩ := Option.map_eq_some_iff.1 hm
    obtain rfl : op' = op := congrArg Aborted.operation he
    exact (hs.named n op' ho).1.symm.trans (hs.named m op' ho').1
  · rw [hmem]
    constructor
    · intro h
      obtain ⟨n, hn, op, ho, rfl⟩ := h
      obtain ⟨op', ho', hh⟩ := (mem_affected hs).1 hn
      obtain rfl := Option.some.inj (ho.symm.trans ho')
      exact ⟨rfl, rfl, n, ho, hh⟩
    · intro h
      obtain ⟨op, forced, reason⟩ := a
      obtain ⟨rfl, rfl, n, ho, hh⟩ := h
      exact ⟨n, (mem_affected hs).2 ⟨op, ho, hh⟩, op, ho, rfl⟩
  · obtain ⟨hsame, -⟩ | ⟨hin, -⟩ := hroll.changes n
    · exact hsame
    · obtain ⟨op, ho, hh⟩ := (mem_affected hs).1 hin
      exact absurd hh (hn op ho)
  · have hb := hhit n op ho hh
    have hfits := hc.fits n
    obtain ⟨coll, hcoll⟩ := hb.collection.1
    have hcoll : c.collections.get? n = some coll := hcoll
    have ho : c.operations.get? n = some op := ho
    rw [face, hcoll, ho] at hfits hb
    obtain ⟨r, hr, hafter⟩ := hfits.undone hb
    exact ⟨coll, r, hcoll, hr, hafter⟩

theorem forceAborts_ok (hc : Reached Planned c) (event : TopologyEvent) :
    ∃ c' e, c.forceAborts event = .ok (c', e) :=
  rollBackAll_ok hc.sound (fun n => (hc.fits n).agrees) _ _

end Cluster
end ShardCluster
