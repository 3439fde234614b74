import ShardCluster.Proofs.Cluster.TransfersFit
/-! An abort undoes an operation: the rings come back whatever happened meanwhile, and the whole
cluster does where nothing but the operation moved on. -/
namespace ShardCluster
open SortedMap

theorem Collection.router_congr {coll coll' : Collection} {key : Option ShardKey}
    (hc : coll'.config = coll.config) (hg : coll'.groups.get? key = coll.groups.get? key) :
    coll'.router key = coll.router key := by
  simp only [Collection.router, Collection.checkKey, hc, hg]

/-- While an operation is live it is about the group with the key, whose old ring is as given. -/
def Face.Holds (F : Face) (key : Option ShardKey) (old : VersionedRing) : Prop :=
  ∀ o, F.operation = some o → o.key = key ∧
    ∃ coll r, F.collection = some coll ∧ coll.router key = .ok r ∧ r.old = old

namespace Face.Holds
variable {key : Option ShardKey} {old : VersionedRing}

theorem of_none {coll : Option Collection} {l : Layout} : Holds ⟨coll, none, l⟩ key old :=
  nofun

theorem congr {coll coll' : Collection} {op op' : Option Operation} {l l' : Layout}
    (h : Holds ⟨some coll, op, l⟩ key old)
    (ho : ∀ o', op' = some o' → ∃ o, op = some o ∧ o'.key = o.key)
    (hr : coll'.router key = coll.router key) : Holds ⟨some coll', op', l'⟩ key old := by
  intro o' ho'
  obtain ⟨o, hop, hk⟩ := ho o' ho'
  obtain ⟨hkey, _, r, hcoll, hget, hold⟩ := h o hop
  obtain rfl := Option.some.inj hcoll
  exact ⟨hk.trans hkey, coll', r, rfl, hr.trans hget, hold⟩

/-- The group of the operation gets other rings for reads and writes. -/
theorem commit {coll : Collection} {o : Operation} {l : Layout} {r r' : Router} {stage : Stage}
    (h : Holds ⟨some coll, some o, l⟩ key old) (hr : coll.router o.key = .ok r)
    (hold : r'.old = r.old) :
    Holds ⟨some (coll.setRouter o.key r'), some { o with stage }, l⟩ key old := by
  intro o' ho'
  obtain rfl := Option.some.inj ho'
  obtain ⟨hkey, _, x, hcoll, hx, hold'⟩ := h o rfl
  obtain rfl := Option.some.inj hcoll
  obtain rfl := Except.ok.inj (hr.symm.trans (hkey ▸ hx))
  exact ⟨hkey, _, r', rfl, hkey ▸ Face.Agrees.router_setRouter hr r', hold.trans hold'⟩

/-- Only a start gives a collection an operation, and only an end takes the old ring away. -/
theorem change {name : String} {epoch : UInt64} {entry : Entry} {F F' : Face} {w : Wake}
    (h : F.Holds key old)
    (hn : ∀ plan, entry = .startResharding plan → plan.operation.collection ≠ name)
    (hc : Change name epoch entry F w F') : F'.Holds key old := by
  have hsame : ∀ {op : Option Operation}, ∀ o', op = some o' → ∃ o, op = some o ∧ o'.key = o.key :=
    fun o' ho' => ⟨o', ho', rfl⟩
  cases hc with
  | foundAuto => exact of_none
  | foundCustom => exact of_none
  | deleted => exact of_none
  | @keyAdded coll op l k placement n hm hk hp hnew hh =>
    intro o ho
    obtain ⟨hkey, _, r, hcoll, hr, hold⟩ := h o ho
    obtain rfl := Option.some.inj hcoll
    have hne : key ≠ some k := fun he => by
      rw [(Collection.router_eq_ok.1 (he ▸ hr)).2] at hk
      cases hk
    have hget : (coll.setRouter (some k) (.single (.ofShards n placement.keys))).router key =
        coll.router key := Collection.router_congr rfl (get?_insert_of_ne hne _ _)
    exact ⟨hkey, _, r, rfl, hget.trans hr, hold⟩
  | @keyDropped coll op l k r hr ho =>
    intro o hop
    obtain ⟨hkey, _, x, hcoll, hx, hold⟩ := h o hop
    obtain rfl := Option.some.inj hcoll
    have hne : key ≠ some k := hkey ▸ ho o hop
    refine ⟨hkey, _, x, rfl, ?_, hold⟩
    rw [← hx]
    exact Collection.router_congr rfl (get?_erase_of_ne hne _)
  | started hname => exact absurd hname (hn _ rfl)
  | readCommitted hs hr hr' =>
    obtain ⟨new, -, rfl⟩ := Router.commitRead_eq_ok.1 hr'
    exact h.commit hr rfl
  | writeCommitted hs hr hr' =>
    obtain ⟨new, -, rfl⟩ := Router.commitWrite_eq_ok.1 hr'
    exact h.commit hr rfl
  | finishedUp => exact of_none
  | finishedDown => exact of_none
  | rolledBack hb =>
    intro o ho
    rw [hb.operation.2] at ho
    cases ho
  | replicated => exact of_none
  | copied => exact h.congr hsame rfl
  | @sliced coll op l t transfers next starts ht hs hm hnext hw =>
    refine h.congr (fun o' ho' => ?_) rfl
    obtain ⟨o, ho, rfl⟩ := Option.map_eq_some_iff.1 ho'
    exact ⟨o, ho, by rw [Operation.settled_eq]⟩
  | discarded => exact h.congr hsame rfl
  | unclaimed => exact of_none
  | replicaDropped => exact h.congr hsame rfl
  | stateSet => exact h.congr hsame rfl
  | evicted => exact h.congr hsame rfl

end Face.Holds

/-- The entries by which an operation moves on, up to its end. -/
inductive Entry.Advances (name : String) : Entry → Prop
  | finished (key : TransferKey) (epoch : UInt64) : Advances name (.finishTransfer name key epoch)
  | read : Advances name (.commitRead name)
  | write : Advances name (.commitWrite name)

/-- The entries that give an operation up: an abort, and the report of a transfer that failed. -/
inductive Entry.Undoes (name : String) : Entry → Prop
  | aborted (forced : Bool) (reason : String) : Undoes name (.abortResharding name forced reason)
  | failed (key : TransferKey) (epoch : UInt64) (reason : String) :
      Undoes name (.failTransfer name key epoch reason)

/-- What a plan has made of a collection so far: a second ring, and replicas to fill. -/
def Plan.Begun (plan : Plan) (coll : Collection) (l : Layout) (r : Router) (F : Face) : Prop :=
  ∃ coll' r' stage, F = ⟨some coll', some { plan.operation with stage },
      l.claimed plan.operation plan.transfers⟩ ∧
    coll'.config = coll.config ∧ coll'.groups = coll.groups.insert plan.operation.key r' ∧
      r'.old = r.old

namespace Plan.Begun
variable {plan : Plan} {coll : Collection} {l : Layout} {r : Router} {F F' : Face} {w : Wake}
  {name : String} {epoch : UInt64} {entry : Entry}

theorem setRouter {coll' : Collection} {r₀ r₁ r₂ : Router} {stage : Stage}
    (hc : coll'.config = coll.config)
    (hg : coll'.groups = coll.groups.insert plan.operation.key r₀) (ho : r₀.old = r.old)
    (hr : coll'.router plan.operation.key = .ok r₁) (hold : r₂.old = r₁.old) :
    plan.Begun coll l r ⟨some (coll'.setRouter plan.operation.key r₂),
      some { plan.operation with stage }, l.claimed plan.operation plan.transfers⟩ := by
  have hget := (Collection.router_eq_ok.1 hr).2
  rw [hg, get?_insert_self] at hget
  obtain rfl := Option.some.inj hget
  refine ⟨_, r₂, stage, rfl, hc, ?_, hold.trans ho⟩
  refine ext_get? fun key => ?_
  simp only [Collection.setRouter, hg, get?_insert]
  split <;> rfl

theorem start (hc : Change name epoch (.startResharding plan) ⟨some coll, none, l⟩ w F')
    (hr : coll.router plan.operation.key = .ok r) : plan.Begun coll l r F' := by
  cases hc with
  | @started _ _ _ x r' hn ht hx hr' hl =>
    obtain rfl := Except.ok.inj (hr.symm.trans hx)
    obtain ⟨-, ring, -, rfl⟩ := Router.start_eq_ok.1 hr'
    exact ⟨_, _, _, rfl, rfl, rfl, rfl⟩
  | rolledBack hb =>
    obtain ⟨op, ho⟩ := hb.operation.1
    cases ho
  | discarded he => simp at he

theorem isSome (h : plan.Begun coll l r F) : F.operation.isSome := by
  obtain ⟨coll', r', stage, rfl, -⟩ := h
  rfl

theorem holds (h : plan.Begun coll l r F) (hr : coll.router plan.operation.key = .ok r) :
    F.Holds plan.operation.key r.old := by
  obtain ⟨coll', r', stage, rfl, hconfig, hgroups, hold⟩ := h
  intro o ho
  obtain rfl := Option.some.inj ho
  obtain ⟨hk, -⟩ := Collection.router_eq_ok.1 hr
  refine ⟨rfl, coll', r', rfl, Collection.router_eq_ok.2 ⟨?_, ?_⟩, hold⟩
  · simpa [Collection.checkKey, hconfig] using hk
  · rw [hgroups, get?_insert_self]

/-- The operation moves on. -/
theorem change (h : plan.Begun coll l r F) (hf : F.Fits) (he : entry.Advances name)
    (hc : Change name epoch entry F w F') (ho : F'.operation.isSome) : plan.Begun coll l r F' := by
  obtain ⟨coll', r', stage, rfl, hconfig, hgroups, hold⟩ := h
  have hend : ∀ {F₁ : Face} {w : Wake}, RollsBack F₁ w F' → plan.Begun coll l r F' := by
    intro F₁ w hb
    rw [hb.operation.2] at ho
    cases ho
  cases he with
  | finished key epoch =>
    cases hc with
    | rolledBack hb => exact hend hb
    | copied ht hs hm hd =>
      cases (hf.fit coll' rfl).operation_none hf.agrees ht hm
    | @sliced _ _ _ t transfers next starts ht hs hm hn hw =>
      have hlater := Operation.settled_eq { plan.operation with stage } transfers
      refine ⟨{ coll' with transfers }, r',
        (Operation.settled { plan.operation with stage } transfers).stage, ?_, hconfig, hgroups, hold⟩
      rw [Option.map_some, hlater]
    | discarded he => simp at he
  | read =>
    cases hc with
    | rolledBack hb => exact hend hb
    | readCommitted hs hr hr' =>
      obtain ⟨new, -, rfl⟩ := Router.commitRead_eq_ok.1 hr'
      exact setRouter hconfig hgroups hold hr rfl
    | discarded he => simp at he
  | write =>
    cases hc with
    | rolledBack hb => exact hend hb
    | writeCommitted hs hr hr' =>
      obtain ⟨new, -, rfl⟩ := Router.commitWrite_eq_ok.1 hr'
      exact setRouter hconfig hgroups hold hr rfl
    | discarded he => simp at he

/-- The replicas that a plan claims come back. -/
theorem restored_up (hfit : Fit coll none l) (hp : plan.Fits coll l r)
    (hd : plan.operation.direction = .up) :
    (l.claimed plan.operation plan.transfers).without [plan.operation.shard] = l := by
  funext q p
  by_cases hq : q = plan.operation.shard
  · rw [hq, hfit.unhoused (hp.up hd).1 p]
    simp [Layout.without]
  · simp [Layout.without, Layout.claimed, hd, Layout.put, hq]

theorem restored_down (hfit : Fit coll none l) (hp : plan.Fits coll l r)
    (hd : plan.operation.direction = .down) {shards : List ShardId} (hs : ∀ q ∈ r.shards, q ∈ shards) :
    (l.claimed plan.operation plan.transfers).settled shards = l := by
  obtain ⟨-, hends, -⟩ := hp.down hd
  funext q p
  by_cases hm : (q, p) ∈ plan.transfers.map (·.key.destination)
  · obtain ⟨t, ht, hdest⟩ := List.mem_map.1 hm
    obtain ⟨-, -, hq, -, hl⟩ := hends t ht
    obtain ⟨rfl, rfl⟩ : t.key.toShard = q ∧ t.key.target = p := Prod.mk.inj hdest
    have hclaimed : l.claimed plan.operation plan.transfers t.key.toShard t.key.target =
        some .resharding := by simp only [Layout.claimed, hd, Layout.marked, if_pos hm]
    simp only [Layout.settled, hclaimed, hs _ hq, and_self, if_true, hl]
  · have hclaimed : l.claimed plan.operation plan.transfers q p = l q p := by
      simp only [Layout.claimed, hd, Layout.marked, if_neg hm]
    have hfree := (hfit.idle rfl).1 q p
    simp only [Layout.settled, hclaimed, hfree, false_and, if_false]

/-- The rollback of a planned operation leaves the collection as it was before the start. -/
theorem undone (h : plan.Begun coll l r F) (hf : F.Fits) (hb : RollsBack F w F')
    (hfit : Fit coll none l) (ht : coll.transfers = []) (hr : coll.router plan.operation.key = .ok r)
    (hi : r.Idle) (hp : plan.Fits coll l r) : F' = ⟨some coll, none, l⟩ := by
  obtain ⟨coll', r', stage, rfl, hconfig, hgroups, hold⟩ := h
  have hlive := hf.fit coll' rfl
  have hsame : ∀ {x : Router}, coll'.router plan.operation.key = .ok x → x = r' ∧
      (coll'.take (·.resharding)).1.setRouter plan.operation.key x.abort = coll := by
    intro x hx
    have hget := (Collection.router_eq_ok.1 hx).2
    rw [hgroups, get?_insert_self] at hget
    obtain rfl := Option.some.inj hget
    have hrest : r'.abort = r := (Router.Idle.abort r').ext hi hold
    have hback : (coll'.groups.insert plan.operation.key r'.abort) = coll.groups := by
      refine ext_get? fun key => ?_
      rw [hgroups, hrest, get?_insert, get?_insert]
      by_cases hk : key = plan.operation.key
      · rw [if_pos hk, hk]
        exact (Collection.router_eq_ok.1 hr).2.symm
      · rw [if_neg hk, if_neg hk]
    obtain ⟨config, groups, transfers⟩ := coll
    obtain rfl : transfers = [] := ht
    have hnil := hlive.take_slices hx
    simp only [Collection.setRouter, Collection.mk.injEq]
    exact ⟨trivial, hconfig, hback, hnil⟩
  cases hb with
  | up hx hd =>
    obtain ⟨rfl, hcoll⟩ := hsame hx
    rw [hcoll, restored_up hfit hp hd]
  | @down _ _ _ x hx hd =>
    obtain ⟨rfl, hcoll⟩ := hsame hx
    have hsub : ∀ q ∈ r.shards, q ∈ x.shards := fun q hq =>
      Router.mem_shards.2 (.inl (hold ▸ hi.mem_shards.1 hq))
    rw [hcoll, restored_down hfit hp hd hsub]

end Plan.Begun

theorem RollsBack.router {F F' : Face} {w : Wake} (h : RollsBack F w F') {coll : Collection}
    {op : Operation} {r : Router} (hc : F.collection = some coll) (ho : F.operation = some op)
    (hr : coll.router op.key = .ok r) :
    ∃ coll', F'.collection = some coll' ∧ coll'.router op.key = .ok r.abort := by
  have hend : ((coll.take (·.resharding)).1.setRouter op.key r.abort).router op.key = .ok r.abort :=
    Face.Agrees.router_setRouter (show (coll.take (·.resharding)).1.router op.key = .ok r from hr) _
  cases h with
  | up hy hd =>
    obtain rfl := Option.some.inj hc
    obtain rfl := Option.some.inj ho
    obtain rfl := Except.ok.inj (hr.symm.trans hy)
    exact ⟨_, rfl, hend⟩
  | down hy hd =>
    obtain rfl := Option.some.inj hc
    obtain rfl := Option.some.inj ho
    obtain rfl := Except.ok.inj (hr.symm.trans hy)
    exact ⟨_, rfl, hend⟩

namespace Cluster
variable {c c' c'' : Cluster} {name : String} {e : Effects} {op : Operation}

/-- Accepted entries of a kind, in the course of which the collection always has an operation. -/
inductive Runs (name : String) (allowed : Entry → Prop) (c : Cluster) : Cluster → Prop
  | refl : Runs name allowed c c
  | step {c' c'' : Cluster} {entry : Entry} {e : Effects} (h : Runs name allowed c c')
      (ha : allowed entry) (hx : c'.apply entry = .ok (c'', e))
      (ho : (c''.operation? name).isSome) : Runs name allowed c c''

/-- A collection with an operation refuses another one. -/
theorem not_started (ho : (c.operation? name).isSome) {entry : Entry}
    (h : c.apply entry = .ok (c', e)) :
    ∀ plan, entry = .startResharding plan → plan.operation.collection ≠ name := by
  intro plan he hn
  subst he
  obtain ⟨hidle, -⟩ := startResharding_eq_ok.1 h
  rw [hn] at hidle
  simp [operation?, hidle] at ho

theorem Runs.isSome {allowed : Entry → Prop} (h : Runs name allowed c c')
    (ho : (c.operation? name).isSome) : (c'.operation? name).isSome := by
  cases h with
  | refl => exact ho
  | step _ _ _ ho => exact ho

/-- What holds of a collection in the course of an operation. -/
theorem Runs.holds {allowed : Entry → Prop} (h : Runs name allowed c c') (hs : c.Sound)
    (ho : (c.operation? name).isSome) {key : Option ShardKey} {old : VersionedRing}
    (hf : (c.face name).Fits) (hh : (c.face name).Holds key old) :
    c'.Sound ∧ (c'.face name).Fits ∧ (c'.face name).Holds key old := by
  induction h with
  | refl => exact ⟨hs, hf, hh⟩
  | @step c' c'' entry e hrun ha hx ho' ih =>
    obtain ⟨hs', hboth⟩ := ih
    have hstep := apply_step hs' hx
    have hno := not_started (hrun.isSome ho) hx
    refine ⟨hstep.sound, hstep.invariant (P := fun F => F.Fits ∧ F.Holds key old)
      (Q := fun n entry _ => ∀ plan, entry = .startResharding plan → plan.operation.collection ≠ n)
      (fun h hb => ⟨h.1.rollsBack hb, fun o ho => ?_⟩) (fun h hq hc => ⟨h.1.change ?_ hc, ?_⟩)
      name hboth hno fun _ _ _ => hno⟩
    · rw [hb.operation.2] at ho
      cases ho
    · exact fun plan he hn => absurd hn (hq plan he)
    · exact h.2.change hq hc

theorem rollBack_ok (hs : c.Sound) (ha : (c.face name).Agrees) (ho : c.operations.get? name = some op)
    (forced : Bool) (reason : String) : ∃ x, c.rollBack name forced reason = .ok x := by
  obtain ⟨coll, r, hc, hr, -⟩ := ha.live op ho
  have hc : c.collections.get? name = some coll := hc
  have hknown : c.replicas.collections.contains name = true := by
    rw [hs.registered]
    exact contains_iff.2 ⟨coll, hc⟩
  have hr' : (coll.take (·.resharding)).1.router op.key = .ok r := hr
  simp only [rollBack, operation?, ho, bind_eq_ok, collection_eq_ok]
  cases hd : op.direction with
  | up =>
    obtain ⟨table, removed, hrem⟩ := ReplicaTable.removeShard_ok hknown op.shard
    simp only [pure_eq_ok, bind_eq_ok]
    exact ⟨_, coll, hc, r, hr', (table, removed), hrem, _, rfl, rfl⟩
  | down =>
    obtain ⟨table, restored, hset⟩ := settleReplicas_ok hknown r.shards
    simp only [pure_eq_ok, bind_eq_ok]
    exact ⟨_, coll, hc, r, hr', (table, restored), hset, _, rfl, rfl⟩

theorem abortResharding_ok (hs : c.Sound) (ha : (c.face name).Agrees)
    (ho : c.operations.get? name = some op) (forced : Bool) (reason : String) :
    ∃ c' e, c.abortResharding name forced reason = .ok (c', e) := by
  obtain ⟨⟨c', e⟩, hroll⟩ := rollBack_ok hs ha ho forced reason
  obtain ⟨coll, r, hc, -, -⟩ := ha.live op ho
  have hc : c.collections.get? name = some coll := hc
  refine ⟨c', e, ?_⟩
  refine abortResharding_eq_ok.2 ⟨coll, none, hc, ?_, hroll⟩
  rw [stage?, operation?, ho, Option.map_some]
  cases op.stage <;> simp [Stage.next]

/-- Clusters are known by what they hold of each collection. -/
theorem ext_faces (hs : c.Sound) (hs' : c'.Sound) (hpeers : c.peers = c'.peers)
    (hpositions : c.ringPositions = c'.ringPositions) (hhome : c.replicas.home = c'.replicas.home)
    (hepoch : c.epoch = c'.epoch) (hfaces : ∀ n, c.face n = c'.face n) : c = c' := by
  have hcoll : c.collections = c'.collections :=
    ext_get? fun n => congrArg Face.collection (hfaces n)
  have hop : c.operations = c'.operations := ext_get? fun n => congrArg Face.operation (hfaces n)
  have hreplicas : c.replicas = c'.replicas := by
    refine hs.tidy.ext hs'.tidy hhome (fun n => ?_) fun n q p => ?_
    · rw [hs.registered, hs'.registered, hcoll]
    · exact congrFun (congrFun (congrArg Face.look (hfaces n)) q) p
  obtain ⟨peers, collections, replicas, operations, epoch, positions⟩ := c
  simp only at hcoll hop hreplicas hpeers hpositions hepoch
  subst hcoll hop hreplicas hpeers hpositions hepoch
  rfl

/-- All but one collection is as it was. -/
structure Kept (name : String) (c c' : Cluster) : Prop where
  peers : c'.peers = c.peers
  ringPositions : c'.ringPositions = c.ringPositions
  home : c'.replicas.home = c.replicas.home
  faces : ∀ n, n ≠ name → c'.face n = c.face n

theorem Kept.trans (h : Kept name c c') (h' : Kept name c' c'') : Kept name c c'' :=
  ⟨h'.peers.trans h.peers, h'.ringPositions.trans h.ringPositions, h'.home.trans h.home,
    fun n hn => (h'.faces n hn).trans (h.faces n hn)⟩

theorem Touched.kept {R : Face → Wake → Face → Prop} {raise : UInt64}
    (h : Touched R raise name c e c') : Kept name c c' := by
  obtain ⟨coll, op, l, hd, -⟩ := h.redone
  exact ⟨hd.peers, hd.ringPositions, hd.replicas.home, fun n hn => hd.face_of_ne hn⟩

theorem advances_touched (hs : c.Sound) {entry : Entry} (he : entry.Advances name)
    (h : c.apply entry = .ok (c', e)) : Touched (Change name (c.epoch + 1) entry) 0 name c e c' := by
  cases he with
  | finished key epoch => exact finishTransfer_touched hs h
  | read => exact commitRead_touched hs h
  | write => exact commitWrite_touched hs h

/-- Whatever gives a live operation up rolls it back. -/
theorem undoes_touched (hs : c.Sound) (hf : (c.face name).Fits) {entry : Entry}
    (he : entry.Undoes name) (ho : (c.operation? name).isSome) (h : c.apply entry = .ok (c', e)) :
    Touched RollsBack 0 name c e c' := by
  cases he with
  | aborted forced reason => exact abortResharding_touched h
  | failed key epoch reason =>
    have htouched := failTransfer_touched hs h
    refine ⟨htouched.redone, htouched.epoch, ?_, htouched.within⟩
    have hchange := htouched.change
    obtain ⟨op, ho⟩ := Option.isSome_iff_exists.1 ho
    have hop : (c.face name).operation = some op := ho
    generalize c.face name = F at hf hop hchange ⊢
    generalize e.wake name = w at hchange ⊢
    generalize c'.face name = F' at hchange ⊢
    cases hchange with
    | rolledBack hb => exact hb
    | @discarded _ coll _ l t _ ht hm =>
      obtain rfl := (hf.fit coll rfl).operation_none hf.agrees ht hm
      cases hop
    | unclaimed => cases hop

/-- After an abort nothing of the operation is left, and its group has its old rings. -/
theorem abort_after (hs : c.Sound) {key : Option ShardKey} {r : Router} (hi : r.Idle)
    (hf : (c.face name).Fits) (hh : (c.face name).Holds key r.old) (ho : (c.operation? name).isSome)
    (forced : Bool) (reason : String) : ∃ c' e,
      c.apply (.abortResharding name forced reason) = .ok (c', e) ∧ c'.operation? name = none ∧
      (∀ t ∈ c'.transfers name, t.resharding = false) ∧
      (∀ q p, c'.replicas.state name q p ≠ .ok .resharding) ∧ c'.router name key = .ok r := by
  obtain ⟨op, hop⟩ := Option.isSome_iff_exists.1 ho
  obtain ⟨c', e, habort⟩ := abortResharding_ok hs hf.agrees hop forced reason
  have hb := (abortResharding_touched habort).change
  have hnone : (c'.face name).operation = none := hb.operation.2
  obtain ⟨rfl, coll, x, hcoll, hx, hold⟩ := hh op hop
  obtain ⟨coll', hcoll', hx'⟩ := hb.router hcoll hop hx
  obtain ⟨hfree, hcopies⟩ := ((hf.rollsBack hb).fit coll' hcoll').idle hnone
  refine ⟨c', e, habort, hnone, fun t ht => ?_, fun q p hq => ?_, ?_⟩
  · rw [transfers_eq hcoll'] at ht
    exact (hcopies t ht).whole
  · exact hfree q p (ReplicaTable.state_eq_ok.1 hq)
  · have hrest : x.abort = r := (Router.Idle.abort x).ext hi hold
    exact router_eq_ok.2 ⟨coll', hcoll', hrest ▸ hx'⟩

/-- An operation that moves on changes no other collection. -/
theorem Runs.advanced {plan : Plan} {coll : Collection} {l : Layout} {r : Router}
    (h : Runs name (Entry.Advances name) c c') (hs : c.Sound) (hf : (c.face name).Fits)
    (hb : plan.Begun coll l r (c.face name)) :
    (c'.Sound ∧ (c'.face name).Fits) ∧ plan.Begun coll l r (c'.face name) ∧ Kept name c c' ∧
      c'.epoch = c.epoch := by
  induction h with
  | refl => exact ⟨⟨hs, hf⟩, hb, ⟨rfl, rfl, rfl, fun _ _ => rfl⟩, rfl⟩
  | @step c' c'' entry e hrun ha hx ho ih =>
    obtain ⟨⟨hs', hf'⟩, hb', hkept, hepoch⟩ := ih
    have hdone := advances_touched hs' ha hx
    have hno := not_started hb'.isSome hx
    have hsound := (apply_step hs' hx).sound
    have hfits := hf'.change (fun plan he hn => absurd hn (hno plan he)) hdone.change
    refine ⟨⟨hsound, hfits⟩, hb'.change hf' ha hdone.change ho, hkept.trans hdone.kept, ?_⟩
    rw [hdone.epoch, hepoch, UInt64.add_zero]

/-- A planned operation can be aborted in every state that it lives to see, and its group has its old
rings again. Where nothing but the operation moved on, the cluster is what it was before the start,
but for the epoch. -/
theorem undone_of_planned {c₀ c₁ : Cluster} (h₀ : Reached Planned c₀) {request : ReshardingRequest}
    {policy : RemovalPolicy} {now : Timestamp} {plan : Plan} {e₁ : Effects}
    (hp : c₀.plan name request policy now = .ok plan)
    (h₁ : c₀.apply (.startResharding plan) = .ok (c₁, e₁)) :
    (∀ c, Runs name (fun _ => True) c₁ c → ∀ forced reason, ∃ c' e,
      c.apply (.abortResharding name forced reason) = .ok (c', e) ∧ c'.operation? name = none ∧
      (∀ t ∈ c'.transfers name, t.resharding = false) ∧
      (∀ q p, c'.replicas.state name q p ≠ .ok .resharding) ∧
      ∃ r, c₀.router name plan.operation.key = .ok r ∧ c'.router name plan.operation.key = .ok r) ∧
    ∀ c, Runs name (Entry.Advances name) c₁ c → ∀ entry : Entry, entry.Undoes name → ∀ c' e,
      c.apply entry = .ok (c', e) → c' = { c₀ with epoch := c₀.epoch + 1 } := by
  obtain ⟨hname, hidle, coll, r, hc, ht, hr, hfits⟩ := plan_fits hp
  have hs₀ := h₀.sound
  have hf₀ := h₀.fits name
  have hface : c₀.face name = ⟨some coll, none, c₀.replicas.look name⟩ := by rw [face, hc, hidle]
  have hstart : Touched (Change name (c₀.epoch + 1) (.startResharding plan)) 1 name c₀ e₁ c₁ :=
    hname ▸ startResharding_touched h₁
  have hs₁ := hstart.sound hs₀ ⟨coll, hc⟩
  have hplanned : Planned c₀ (.startResharding plan) := fun plan' he => by
    obtain rfl := Entry.startResharding.inj he
    exact ⟨name, request, policy, now, hp⟩
  have hf₁ : (c₁.face name).Fits := hf₀.change (hplanned.face name) hstart.change
  have hi : r.Idle := by
    rw [hface] at hf₀
    exact hf₀.agrees.rests (Collection.router_eq_ok.1 hr).2
  have hbegun : plan.Begun coll (c₀.replicas.look name) r (c₁.face name) :=
    .start (hface ▸ hstart.change) hr
  have hlive : (c₁.operation? name).isSome := hbegun.isSome
  refine ⟨fun c hrun forced reason => ?_, fun c hrun entry hundo c' e hx => ?_⟩
  · obtain ⟨hs, hf, hh⟩ := hrun.holds hs₁ hlive hf₁ (hbegun.holds hr)
    obtain ⟨c', e, hx, hnone, hcopies, hfree, hrouter⟩ :=
      abort_after hs hi hf hh (hrun.isSome hlive) forced reason
    exact ⟨c', e, hx, hnone, hcopies, hfree, r, router_eq_ok.2 ⟨coll, hc, hr⟩, hrouter⟩
  · obtain ⟨⟨hs, hf⟩, hb, hkept, hepoch⟩ := hrun.advanced hs₁ hf₁ hbegun
    have hback := undoes_touched hs hf hundo hb.isSome hx
    have hall := (hstart.kept.trans hkept).trans hback.kept
    have hsame : c'.face name = c₀.face name := by
      rw [hface]
      exact hb.undone hf hback.change ((hface ▸ hf₀).fit coll rfl) ht hr hi hfits
    have hsound₀ : ({ c₀ with epoch := c₀.epoch + 1 } : Cluster).Sound :=
      ⟨hs₀.registered, hs₀.named, hs₀.tidy⟩
    refine ext_faces (apply_step hs hx).sound hsound₀ hall.peers hall.ringPositions hall.home ?_
      fun n => ?_
    · rw [hback.epoch, hepoch, hstart.epoch, UInt64.add_zero]
    · by_cases hn : n = name
      · exact hn ▸ hsame
      · exact hall.faces n hn

/-- A shard that leaves, up to the commit for reads, and the abort. -/
def returning : Except Error (Cluster × Plan × Cluster × Cluster × Cluster × Cluster) := do
  let c₀ ← replay 1 1 [.addPeer 1, .addPeer 2,
    .createCollection "points" {} (.ofList [(0, [1]), (1, [2])])]
  let plan ← c₀.plan "points" { direction := .down } .last .epoch
  let (c₁, _) ← c₀.apply (.startResharding plan)
  let (c₂, _) ← c₁.apply (.finishTransfer "points" ⟨1, 0, 2, 1⟩ 1)
  let (c₃, _) ← c₂.apply (.commitRead "points")
  let (c₄, _) ← c₃.apply (.abortResharding "points" false "")
  return (c₀, plan, c₁, c₂, c₃, c₄)

theorem undone_returning : ∃ c₀ plan c₁ c₂ c₃ c₄, returning = .ok (c₀, plan, c₁, c₂, c₃, c₄) ∧
    c₃.stage? "points" = some .awaitingWriteCommit ∧ c₄ = { c₀ with epoch := c₀.epoch + 1 } := by
  have hlive : returning.toOption.map (fun x => (x.2.2.2.1.stage? "points", x.2.2.2.2.1.stage? "points")) =
      some (some .awaitingReadCommit, some .awaitingWriteCommit) := by decide +kernel
  cases h : returning with
  | error err =>
    rw [h] at hlive
    cases hlive
  | ok x =>
    obtain ⟨_, _, _, _, _, _⟩ := x
    rw [h] at hlive
    obtain ⟨hstage₂, hstage₃⟩ := Prod.mk.inj (Option.some.inj hlive)
    simp only [returning, bind_eq_ok, pure_eq_ok, Prod.mk.injEq] at h
    obtain ⟨c₀, hfound, plan, hplan, ⟨c₁, e₁⟩, h₁, ⟨c₂, e₂⟩, h₂, ⟨c₃, e₃⟩, h₃, ⟨c₄, e₄⟩, h₄, rfl, rfl,
      rfl, rfl, rfl, rfl⟩ := h
    have hsome : ∀ {c : Cluster} {s : Stage}, c.stage? "points" = some s →
        (c.operation? "points").isSome := by
      intro c s hs
      obtain ⟨op, ho, -⟩ := Option.map_eq_some_iff.1 hs
      simp [ho]
    have hnew : Reached Planned (.new 1 1) := .new 1 1
    have hplain : Reached Planned c₀ := hnew.applyAll (by simp [Planned]) hfound
    have hrun : Runs "points" (Entry.Advances "points") c₁ c₃ :=
      (Runs.refl.step (.finished _ _) h₂ (hsome hstage₂)).step .read h₃ (hsome hstage₃)
    refine ⟨_, _, _, _, _, _, rfl, hstage₃, ?_⟩
    exact (undone_of_planned hplain hplan h₁).2 c₃ hrun _ (.aborted _ _) c₄ e₄ h₄

end Cluster
end ShardCluster
