import ShardCluster.Proofs.Cluster.Apply
/-! The operation of a collection and the rings of its groups are kept apart, and never disagree. -/
namespace ShardCluster
open SortedMap

namespace Face

/-- Only the group of the live operation has two rings, and they are at the stage of the operation. -/
structure Agrees (F : Face) : Prop where
  idle : ∀ coll key r, F.collection = some coll → coll.groups.get? key = some r →
    (∀ o, F.operation = some o → o.key ≠ key) → r.Idle
  live : ∀ o, F.operation = some o →
    ∃ coll r, F.collection = some coll ∧ coll.router o.key = .ok r ∧ r.Follows o

namespace Agrees
variable {coll coll' : Collection} {op : Option Operation} {o o' : Operation} {l l' : Layout}
  {r r' : Router}

theorem empty (l : Layout) : Agrees ⟨none, none, l⟩ :=
  ⟨nofun, nofun⟩

/-- Without an operation no group has two rings. -/
theorem rests (h : Agrees ⟨some coll, none, l⟩) {key : Option ShardKey}
    (hr : coll.groups.get? key = some r) : r.Idle :=
  h.idle coll key r rfl hr fun _ ho => by cases ho

/-- The group of the live operation has a router, which follows the operation. -/
theorem exists_router (h : Agrees ⟨some coll, some o, l⟩) :
    ∃ r, coll.router o.key = .ok r ∧ r.Follows o := by
  obtain ⟨_, r, hcoll, hr, hf⟩ := h.live o rfl
  obtain rfl := Option.some.inj hcoll
  exact ⟨r, hr, hf⟩

/-- The live operation is not about a group that is not there. -/
theorem key_ne (h : Agrees ⟨some coll, some o, l⟩) {key : Option ShardKey}
    (hk : coll.groups.get? key = none) : o.key ≠ key := by
  rintro rfl
  obtain ⟨r, hr, -⟩ := h.exists_router
  rw [(Collection.router_eq_ok.1 hr).2] at hk
  cases hk

/-- Replicas and transfers do not matter. -/
theorem congr (h : Agrees ⟨some coll, op, l⟩) (hg : coll'.groups = coll.groups)
    (hc : coll'.config = coll.config) : Agrees ⟨some coll', op, l'⟩ where
  idle _ key r hcoll hr ho := by
    obtain rfl := Option.some.inj hcoll
    exact h.idle coll key r rfl (hg ▸ hr) ho
  live o ho := by
    obtain ⟨_, r, hcoll, hr, hf⟩ := h.live o ho
    obtain rfl := Option.some.inj hcoll
    obtain ⟨hk, hget⟩ := Collection.router_eq_ok.1 hr
    refine ⟨coll', r, rfl, Collection.router_eq_ok.2 ⟨?_, hg ▸ hget⟩, hf⟩
    simpa [Collection.checkKey, hc] using hk

theorem router_setRouter {key : Option ShardKey} (h : coll.router key = .ok r) (r' : Router) :
    (coll.setRouter key r').router key = .ok r' := by
  obtain ⟨hk, -⟩ := Collection.router_eq_ok.1 h
  refine Collection.router_eq_ok.2 ⟨?_, get?_insert_self _ _ _⟩
  simpa [Collection.checkKey, Collection.setRouter] using hk

/-- The group of the operation takes its next step. -/
theorem move {key : Option ShardKey} (h : Agrees ⟨some coll, op, l⟩)
    (ho : ∀ o, op = some o → o.key = key) (hr : coll.router key = .ok r) (hk : o'.key = key)
    (hf : r'.Follows o') : Agrees ⟨some (coll.setRouter key r'), some o', l'⟩ where
  idle _ key' x hcoll hx hne := by
    obtain rfl := Option.some.inj hcoll
    have hne' : key' ≠ key := fun he => hne o' rfl (hk.trans he.symm)
    rw [Collection.setRouter, get?_insert_of_ne hne'] at hx
    exact h.idle coll key' x rfl hx fun o hop he => hne' (he ▸ ho o hop)
  live o hop := by
    obtain rfl := Option.some.inj hop
    exact ⟨_, r', rfl, hk ▸ router_setRouter hr r', hf⟩

/-- A step of the operation that leaves its rings as they are. -/
theorem restage (h : Agrees ⟨some coll, some o, l⟩) (hk : o'.key = o.key)
    (hf : ∀ r : Router, r.Follows o → r.Follows o') : Agrees ⟨some coll, some o', l⟩ where
  idle _ key x hcoll hx hne := h.idle _ key x hcoll hx fun o₁ ho₁ => by
    obtain rfl := Option.some.inj ho₁
    exact hk ▸ hne o' rfl
  live o₁ ho₁ := by
    obtain rfl := Option.some.inj ho₁
    obtain ⟨r, hr, hfollows⟩ := h.exists_router
    exact ⟨_, r, rfl, hk ▸ hr, hf r hfollows⟩

/-- The group of the operation comes to rest. -/
theorem rest (h : Agrees ⟨some coll, some o, l⟩) (hi : r'.Idle) :
    Agrees ⟨some (coll.setRouter o.key r'), none, l'⟩ where
  idle _ key' x hcoll hx _ := by
    obtain rfl := Option.some.inj hcoll
    by_cases hk : key' = o.key
    · subst hk
      obtain rfl := Option.some.inj ((get?_insert_self _ _ _).symm.trans hx)
      exact hi
    · rw [Collection.setRouter, get?_insert_of_ne hk] at hx
      refine h.idle coll key' x rfl hx fun o' ho' he => ?_
      obtain rfl := Option.some.inj ho'
      exact hk he.symm
  live _ h := by cases h

/-- The router of the live operation. -/
theorem follows (h : Agrees ⟨some coll, some o, l⟩) (hr : coll.router o.key = .ok r) :
    r.Follows o := by
  obtain ⟨r', hr', hf⟩ := h.exists_router
  obtain rfl := Except.ok.inj (hr.symm.trans hr')
  exact hf

theorem rollsBack {F F' : Face} {w : Wake} (h : F.Agrees) (hb : RollsBack F w F') : F'.Agrees := by
  cases hb with
  | @up coll op l r hr hd =>
    have htaken : Agrees ⟨some (coll.take (·.resharding)).1, some op, l⟩ := h.congr rfl rfl
    exact htaken.rest (.abort r)
  | @down coll op l r hr hd =>
    have htaken : Agrees ⟨some (coll.take (·.resharding)).1, some op, l⟩ := h.congr rfl rfl
    exact htaken.rest (.abort r)

/-- The operation stays with its group while other groups come and go. -/
theorem regroup (h : Agrees ⟨some coll, op, l⟩) (hc : coll'.config = coll.config)
    (hidle : ∀ key r, coll'.groups.get? key = some r → r.Idle ∨ coll.groups.get? key = some r)
    (hkeep : ∀ o, op = some o → coll'.groups.get? o.key = coll.groups.get? o.key) :
    Agrees ⟨some coll', op, l'⟩ where
  idle _ key r hcoll hr ho := by
    obtain rfl := Option.some.inj hcoll
    obtain hi | hr := hidle key r hr
    · exact hi
    · exact h.idle coll key r rfl hr ho
  live o ho := by
    obtain ⟨_, r, hcoll, hr, hf⟩ := h.live o ho
    obtain rfl := Option.some.inj hcoll
    obtain ⟨hk, hget⟩ := Collection.router_eq_ok.1 hr
    refine ⟨coll', r, rfl, Collection.router_eq_ok.2 ⟨?_, (hkeep o ho).trans hget⟩, hf⟩
    simpa [Collection.checkKey, hc] using hk

theorem change {name : String} {epoch : UInt64} {entry : Entry} {F F' : Face} {w : Wake}
    (h : F.Agrees) (hc : Change name epoch entry F w F') : F'.Agrees := by
  cases hc with
  | foundAuto hm hp hh =>
    refine ⟨fun _ key r hcoll hr _ => ?_, fun _ h => by cases h⟩
    obtain rfl := Option.some.inj hcoll
    by_cases hk : key = none
    · subst hk
      obtain rfl := Option.some.inj ((get?_insert_self _ _ _).symm.trans hr)
      exact .single _
    · rw [get?_insert_of_ne hk] at hr
      cases hr
  | foundCustom hm =>
    refine ⟨fun _ key r hcoll hr _ => ?_, fun _ h => by cases h⟩
    obtain rfl := Option.some.inj hcoll
    cases hr
  | deleted => exact .empty _
  | @keyAdded coll op l key placement n hm hk hp hn hh =>
    refine h.regroup rfl (fun key' r hr => ?_) fun o ho => ?_
    · by_cases hkey : key' = some key
      · subst hkey
        obtain rfl := Option.some.inj ((get?_insert_self _ _ _).symm.trans hr)
        exact .inl (.single _)
      · rw [Collection.setRouter, get?_insert_of_ne hkey] at hr
        exact .inr hr
    · subst ho
      exact get?_insert_of_ne (h.key_ne hk) _ _
  | keyDropped hr ho =>
    refine h.regroup rfl (fun key' r hr => ?_) fun o hop => get?_erase_of_ne (ho o hop) _
    exact .inr (get?_erase_eq_some.1 hr).2
  | @started coll l plan r r' hn ht hr hr' hl =>
    have hi : r.Idle := h.rests (Collection.router_eq_ok.1 hr).2
    have hf : r'.Follows { plan.operation with
        stage := if plan.transfers = [] then .awaitingReadCommit else .starting } := by
      apply hi.start hr'
      split <;> rfl
    have hmoved : Agrees ⟨some (coll.setRouter plan.operation.key r'), some { plan.operation with
        stage := if plan.transfers = [] then .awaitingReadCommit else .starting }, l⟩ :=
      h.move nofun hr rfl hf
    exact hmoved.congr rfl rfl
  | readCommitted hs hr hr' =>
    exact h.move (fun _ ho => Option.some.inj ho ▸ rfl) hr rfl ((h.follows hr).commitRead hs hr')
  | writeCommitted hs hr hr' =>
    exact h.move (fun _ ho => Option.some.inj ho ▸ rfl) hr rfl ((h.follows hr).commitWrite hs hr')
  | finishedUp hs hr hr' hd => exact h.rest (.finish hr')
  | finishedDown hs hr hr' hd => exact h.rest (.finish hr')
  | rolledBack hb => exact h.rollsBack hb
  | replicated hm hq hs hd hk => exact h.congr rfl rfl
  | copied ht hs hm hd => exact h.congr rfl rfl
  | @sliced coll op l t transfers next starts ht hs hm hn hw =>
    cases op with
    | none => exact h.congr rfl rfl
    | some o =>
      have hlater : Agrees ⟨some coll, some (o.settled transfers), l⟩ := by
        unfold Operation.settled
        split
        · rename_i hlast
          exact h.restage rfl fun r hf =>
            hf.stage (by simp [hlast.2, Stage.readCommitted]) (by simp [hlast.2])
        · exact h
      exact hlater.congr rfl rfl
  | discarded he ht hm => exact h.congr rfl rfl
  | unclaimed ht hm => exact h
  | replicaDropped hu ho hl => exact h.congr rfl rfl
  | stateSet hu hl ho hs => exact h.congr rfl rfl
  | evicted ho hf => exact h.congr rfl rfl

end Agrees
end Face

/-- The rings of a group while an operation changes it to `new`. -/
structure Router.Shows (r : Router) (op : Operation) (new : VersionedRing) : Prop where
  inFlight : r.new = some new
  version : new.version = r.old.version + 1
  up : op.direction = .up → r.old.ring.contains op.shard = false ∧ new.ring = r.old.ring.add op.shard ∧
    ∀ q, new.ring.contains q = true ↔ q = op.shard ∨ r.old.ring.contains q = true
  down : op.direction = .down →
    r.old.ring.contains op.shard = true ∧ new.ring = r.old.ring.remove op.shard ∧
      ∀ q, new.ring.contains q = true ↔ q ≠ op.shard ∧ r.old.ring.contains q = true
  read : r.read = if op.stage = .awaitingWriteCommit ∨ op.stage = .awaitingFinish then new else r.old
  write : r.write = if op.stage = .awaitingFinish then new else r.old

theorem Router.Follows.shows {r : Router} {op : Operation} (h : r.Follows op) :
    r.Shows op r.target := by
  obtain ⟨ring, -, hn⟩ := h.new
  have htarget : r.target = ⟨r.old.version + 1, ring⟩ := by simp [Router.target, hn]
  refine ⟨htarget ▸ hn, by rw [htarget], fun hd => ?_, fun hd => ?_, ?_, h.write⟩
  · obtain ⟨hc, ht⟩ := h.up hd
    rw [ht]
    exact ⟨hc, rfl, fun q => Ring.contains_add⟩
  · obtain ⟨hc, -, ht⟩ := h.down hd
    rw [ht]
    exact ⟨hc, rfl, fun q => Ring.contains_remove⟩
  · rw [h.read]
    cases op.stage <;> rfl

namespace Cluster
variable {c : Cluster}

/-- The operation table and the rings of the groups say the same. -/
structure RingsAgree (c : Cluster) : Prop where
  /-- A group has two rings just while an operation is about it. -/
  resharding : ∀ name coll key r, c.collections.get? name = some coll → coll.groups.get? key = some r →
    (r.resharding = true ↔ ∃ op, c.operation? name = some op ∧ op.key = key)
  idle : ∀ name coll key r, c.collections.get? name = some coll → coll.groups.get? key = some r →
    r.resharding = false → r.read = r.old ∧ r.write = r.old
  /-- Every operation is under its own name, and its group is at its stage. -/
  live : ∀ name op, c.operation? name = some op → op.collection = name ∧
    ∃ coll r new, c.collections.get? name = some coll ∧ coll.groups.get? op.key = some r ∧
      r.Shows op new

theorem ringsAgree_of_faces (hs : c.Sound) (h : ∀ name, (c.face name).Agrees) : c.RingsAgree where
  resharding name coll key r hc hr := by
    constructor
    · intro hres
      cases ho : c.operations.get? name with
      | none =>
        have hi := (h name).idle coll key r hc hr fun o hop => by
          rw [face, ho] at hop
          cases hop
        rw [hi.resharding] at hres
        cases hres
      | some op =>
        by_cases hk : op.key = key
        · exact ⟨op, ho, hk⟩
        · have hi := (h name).idle coll key r hc hr fun o hop => by
            obtain rfl := Option.some.inj (ho.symm.trans hop)
            exact hk
          rw [hi.resharding] at hres
          cases hres
    · intro hop
      obtain ⟨op, ho, rfl⟩ := hop
      obtain ⟨_, r', hc', hr', hf⟩ := (h name).live op ho
      obtain rfl := Option.some.inj (hc.symm.trans hc')
      obtain rfl := Option.some.inj (hr.symm.trans (Collection.router_eq_ok.1 hr').2)
      exact hf.resharding
  idle name coll key r hc hr hres := by
    have hi := (h name).idle coll key r hc hr fun o ho hk => by
      obtain ⟨_, r', hc', hr', hf⟩ := (h name).live o ho
      obtain rfl := Option.some.inj (hc.symm.trans hc')
      obtain rfl := Option.some.inj (hr.symm.trans (hk ▸ (Collection.router_eq_ok.1 hr').2))
      rw [hf.resharding] at hres
      cases hres
    exact ⟨hi.read, hi.write⟩
  live name op ho := by
    obtain ⟨coll, r, hc, hr, hf⟩ := (h name).live op ho
    exact ⟨(hs.named name op ho).1, coll, r, r.target, hc, (Collection.router_eq_ok.1 hr).2, hf.shows⟩

theorem Reached.agrees {allowed : Cluster → Entry → Prop} (h : Reached allowed c) (name : String) :
    (c.face name).Agrees :=
  h.invariant (Q := fun _ _ _ => True) (.empty _) (fun h hb => h.rollsBack hb)
    (fun h _ hc => h.change hc) (fun _ _ _ _ => ⟨trivial, fun _ _ _ => trivial⟩) name

/-- However a cluster came about, its rings are at the stages of its operations. -/
theorem ringsAgree_of_replay {home : PeerId} {ringPositions : Nat} {entries : List Entry}
    (h : Cluster.replay home ringPositions entries = .ok c) : c.RingsAgree := by
  have hr : Reached (fun _ _ => True) c := (Reached.new home ringPositions).applyAll (fun _ _ _ => trivial) h
  exact ringsAgree_of_faces hr.sound hr.agrees

/-- A ring that grows by a shard, up to the commit for reads. -/
def growing : List Entry :=
  [.addPeer 1, .createCollection "points" {} (.ofList [(0, [1])]),
    .startResharding ⟨{ collection := "points", direction := .up, peer := 1, shard := 1 },
      [{ key := ⟨0, 1, 1, 1⟩, method := .slice, status := .running }]⟩,
    .finishTransfer "points" ⟨0, 1, 1, 1⟩ 1, .commitRead "points"]

theorem ringsAgree_growing : ∃ c, Cluster.replay 1 1 growing = .ok c ∧
    c.stage? "points" = some .awaitingWriteCommit ∧ c.RingsAgree := by
  have hlive : (Cluster.replay 1 1 growing).toOption.bind (·.stage? "points") =
      some .awaitingWriteCommit := by decide +kernel
  cases h : Cluster.replay 1 1 growing with
  | error err =>
    rw [h] at hlive
    cases hlive
  | ok c =>
    rw [h] at hlive
    exact ⟨c, rfl, hlive, ringsAgree_of_replay h⟩

end Cluster
end ShardCluster
