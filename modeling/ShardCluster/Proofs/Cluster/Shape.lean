import ShardCluster.Proofs.Cluster.Transfers
/-! What the entries on the shape of a cluster do to its collections. A deletion may first roll some
operations back. -/
namespace ShardCluster.Cluster
open SortedMap ReplicaTable
variable {c c' : Cluster} {name : String} {e : Effects}

/-- What an accepted entry comes to, collection by collection. -/
structure Step (c : Cluster) (entry : Entry) (e : Effects) (c' : Cluster) : Prop where
  sound : c'.Sound
  changes : ∀ n, Changes n (c.epoch + 1) entry (c.face n) (e.wake n) (c'.face n)

theorem Touched.face_of_ne {R : Face → Wake → Face → Prop} {raise : UInt64}
    (h : Touched R raise name c e c') {n : String} (hn : n ≠ name) : c'.face n = c.face n := by
  obtain ⟨coll, op, l, hd, -⟩ := h.redone
  exact hd.face_of_ne hn

theorem Touched.sound {R : Face → Wake → Face → Prop} {raise : UInt64}
    (h : Touched R raise name c e c') (hs : c.Sound) (hk : ∃ coll, (c.face name).collection = some coll) :
    c'.Sound := by
  obtain ⟨coll, op, l, hd, hop⟩ := h.redone
  exact hd.sound hs (SortedMap.contains_iff.2 hk) hop

theorem Touched.step {entry : Entry} {raise : UInt64} (hs : c.Sound)
    (h : Touched (Change name (c.epoch + 1) entry) raise name c e c')
    (hn : ∀ config placement, entry ≠ .createCollection name config placement) :
    Step c entry e c' where
  sound := h.sound hs (h.change.known hn)
  changes n := by
    by_cases hne : n = name
    · subst hne
      exact .one h.change
    · rw [h.within n hne, h.face_of_ne hne]
      exact .none

/-- Rollbacks, one collection after the other. -/
structure Rollbacks (names : List String) (c : Cluster) (e : Effects) (c' : Cluster) : Prop where
  sound : c'.Sound
  epoch : c'.epoch = c.epoch
  idle : ∀ n ∈ names, (c'.face n).operation = none
  changes : ∀ n, (c'.face n = c.face n ∧ e.wake n = .still) ∨
    n ∈ names ∧ RollsBack (c.face n) (e.wake n) (c'.face n)

theorem rollBackAll_rollbacks {reason : String} {names : List String} (hs : c.Sound)
    (h : c.rollBackAll reason names = .ok (c', e)) : Rollbacks names c e c' := by
  induction names generalizing c e with
  | nil =>
    obtain ⟨rfl, rfl⟩ : c = c' ∧ {} = e := by simpa [rollBackAll] using h
    exact ⟨hs, rfl, by simp, fun n => .inl ⟨rfl, Effects.wake_still n rfl rfl rfl rfl⟩⟩
  | cons name rest ih =>
    simp only [rollBackAll, bind_eq_ok, pure_eq_ok, Prod.mk.injEq] at h
    obtain ⟨⟨c₁, e₁⟩, hroll, ⟨c₂, e₂⟩, hrest, rfl, rfl⟩ := h
    cases ho : c.operations.get? name with
    | none =>
      obtain ⟨rfl, rfl⟩ : c = c₁ ∧ {} = e₁ := by
        simpa using (rollBack_none ho true reason).symm.trans hroll
      obtain ⟨hs', hep, hidle, hch⟩ := ih hs hrest
      have hw : ∀ n, (({} : Effects) ++ e₂).wake n = e₂.wake n := fun n => by
        rw [Effects.wake_append, Effects.wake_still n rfl rfl rfl rfl, Wake.still_append]
      refine ⟨hs', hep, fun n hn => ?_, fun n => ?_⟩
      · obtain rfl | hn := List.mem_cons.1 hn
        · obtain ⟨hf, -⟩ | ⟨-, hr⟩ := hch n
          · rw [hf, face, ho]
          · exact hr.operation.2
        · exact hidle n hn
      · rw [hw]
        exact (hch n).imp id fun hr => ⟨List.mem_cons_of_mem _ hr.1, hr.2⟩
    | some op =>
      have ht := rollBack_touched ho hroll
      have hs₁ := ht.sound hs ht.change.collection.1
      obtain ⟨hs', hep, hidle, hch⟩ := ih hs₁ hrest
      refine ⟨hs', hep.trans (by simpa using ht.epoch), fun n hn => ?_, fun n => ?_⟩
      · obtain rfl | hn := List.mem_cons.1 hn
        · obtain ⟨hf, -⟩ | ⟨-, hr⟩ := hch n
          · rw [hf]
            exact ht.change.operation.2
          · exact hr.operation.2
        · exact hidle n hn
      · rw [Effects.wake_append]
        by_cases hn : n = name
        · subst hn
          obtain ⟨hf, hw⟩ | ⟨-, hr⟩ := hch n
          · rw [hf, hw, Wake.append_still]
            exact .inr ⟨List.mem_cons_self, ht.change⟩
          · obtain ⟨op', hop'⟩ := hr.operation.1
            rw [ht.change.operation.2] at hop'
            cases hop'
        · rw [ht.within n hn, Wake.still_append, ← ht.face_of_ne hn]
          exact (hch n).imp id fun hr => ⟨List.mem_cons_of_mem _ hr.1, hr.2⟩

theorem Rollbacks.collection {names : List String} (h : Rollbacks names c e c') (n : String)
    {coll : Collection} (hc : c.collections.get? n = some coll) :
    ∃ coll', c'.collections.get? n = some coll' := by
  obtain ⟨hf, -⟩ | ⟨-, hr⟩ := h.changes n
  · exact ⟨coll, (congrArg Face.collection hf).trans hc⟩
  · exact hr.collection.2

theorem Rollbacks.look_none {names : List String} (h : Rollbacks names c e c') {n : String}
    {q : ShardId} {p : PeerId} (hl : c.replicas.look n q p = none) : c'.replicas.look n q p = none := by
  obtain ⟨hf, -⟩ | ⟨-, hr⟩ := h.changes n
  · exact (congrArg (fun F : Face => F.look q p) hf).trans hl
  · exact hr.look_none hl

/-- A change that may follow rollbacks. -/
theorem Rollbacks.step {names : List String} {c₁ : Cluster} {e₁ : Effects} {entry : Entry}
    (h : Rollbacks names c e₁ c₁) (hs : c'.Sound) (w : String → Wake)
    (hw : ∀ n, e.wake n = e₁.wake n ++ w n)
    (h' : ∀ n, Change n (c.epoch + 1) entry (c₁.face n) (w n) (c'.face n) ∨ c'.face n = c₁.face n ∧ w n = .still) :
    Step c entry e c' where
  sound := hs
  changes n := by
    rw [hw]
    obtain ⟨hf, hw⟩ | ⟨-, hr⟩ := h.changes n
    · obtain hc | ⟨hf', hw'⟩ := h' n
      · rw [hw, Wake.still_append, ← hf]
        exact .one hc
      · rw [hw, hw', hf', hf, Wake.append_still]
        exact .none
    · obtain hc | ⟨hf', hw'⟩ := h' n
      · exact .two hr hc
      · rw [hw', hf', Wake.append_still]
        exact .one (.rolledBack hr)

theorem checkPlacement_hosted {l : List (ShardId × List PeerId)} {u : Unit}
    (h : c.checkPlacement l = .ok u) : ∀ x ∈ l, x.2 ≠ [] := by
  induction l with
  | nil => simp
  | cons x rest ih =>
    obtain ⟨q, hosts⟩ := x
    simp only [checkPlacement, ite_eq_ok] at h
    obtain ⟨-, h⟩ | ⟨hne, h⟩ := h
    · cases h
    · cases hf : hosts.find? (fun p => !c.peers.contains p) with
      | some p => simp [hf] at h
      | none =>
        simp only [hf] at h
        intro y hy
        obtain rfl | hy := List.mem_cons.1 hy
        · simpa using hne
        · exact ih h y hy

theorem checkPlacement_ok {placement : Placement} {u : Unit}
    (h : c.checkPlacement placement.entries = .ok u) : placement.Hosted :=
  fun q hosts hq => checkPlacement_hosted h (q, hosts) (mem_entries.2 hq)

theorem addPeer_step (hs : c.Sound) {peer : PeerId} (h : c.addPeer peer = .ok (c', e)) :
    Step c (.addPeer peer) e c' := by
  obtain ⟨-, rfl, rfl⟩ := addPeer_eq_ok.1 h
  refine ⟨⟨hs.registered, hs.named, hs.tidy⟩, fun n => ?_⟩
  rw [Effects.wake_still n rfl rfl rfl rfl]
  exact .none

theorem createShardKey_touched (hs : c.Sound) {key : ShardKey} {placement : Placement}
    (h : c.createShardKey name key placement = .ok (c', e)) :
    Touched (Change name (c.epoch + 1) (.createShardKey name key placement)) 0 name c e c' := by
  obtain ⟨coll, table, hc, hm, hk, hp, hnew, hcheck, hins, rfl, rfl⟩ := createShardKey_eq_ok.1 h
  have hd := Redone.edit c.epoch
    (coll.setRouter (some key) (.single (.ofShards c.ringPositions placement.keys)))
    (insertPlacement_redrawn hins) (get?_same rfl)
  refine hd.touched (fun o ho => (hs.named name o ho).1) (UInt64.add_zero c.epoch).symm
    (fun n _ => Effects.wake_still n rfl rfl rfl rfl) ?_
  rw [Effects.wake_still name rfl rfl rfl rfl, face, hc]
  exact .keyAdded hm (by simpa [SortedMap.contains] using hk) hp hnew (checkPlacement_ok hcheck)

theorem placed_of_isEmpty (l : Layout) {placement : Placement} (h : placement.isEmpty = true) :
    l.placed placement = l := by
  funext q p
  simp [Layout.placed, isEmpty_iff.1 h q]

/-- A new collection under a free name, with the replicas of a placement. -/
theorem founded_sound (hs : c.Sound) {placement : Placement} {table : ReplicaTable}
    (hins : insertPlacement (c.replicas.register name) name placement = .ok table) (coll : Collection) :
    Sound { c with replicas := table, collections := c.collections.insert name coll } := by
  have hdraw := insertPlacement_redrawn hins
  refine ⟨fun n => ?_, fun n op hop => ?_, hdraw.tidy (hs.tidy.register name)⟩
  · rw [Bool.eq_iff_iff, hdraw.known, contains_register, hs.registered]
    by_cases hne : n = name
    · subst hne
      simp [SortedMap.contains]
    · simp [SortedMap.contains, get?_insert_of_ne hne, hne]
  · obtain ⟨hcoll, hk⟩ := hs.named n op hop
    refine ⟨hcoll, ?_⟩
    by_cases hne : n = name
    · subst hne
      simp [SortedMap.contains]
    · simpa [SortedMap.contains, get?_insert_of_ne hne] using hk

theorem createCollection_step (hs : c.Sound) {config : CollectionConfig} {placement : Placement}
    (h : c.createCollection name config placement = .ok (c', e)) :
    Step c (.createCollection name config placement) e c' ∧ c'.epoch = c.epoch := by
  obtain ⟨hnew, -, hcheck, groups, table, hgroups, hins, rfl, rfl⟩ := createCollection_eq_ok.1 h
  have hnone : c.collections.get? name = none := by simpa [SortedMap.contains] using hnew
  have hchange : Change name (c.epoch + 1) (.createCollection name config placement) ⟨none, none, .none⟩
      .still ⟨some { config, groups }, none, Layout.none.placed placement⟩ := by
    obtain ⟨hm, hp, rfl⟩ | ⟨hm, hp, rfl⟩ := hgroups
    · exact .foundAuto hm hp (checkPlacement_ok hcheck)
    · rw [placed_of_isEmpty Layout.none hp]
      exact .foundCustom hm
  have hdraw := insertPlacement_redrawn hins
  have hlook := hdraw.look_eq
  rw [look_register] at hlook
  have hface := hs.face_none hnone
  have hempty : c.replicas.look name = Layout.none := congrArg Face.look hface
  have hidle : c.operations.get? name = none := congrArg Face.operation hface
  refine ⟨⟨founded_sound hs hins _, fun n => ?_⟩, rfl⟩
  rw [Effects.wake_still n rfl rfl rfl rfl]
  by_cases hne : n = name
  · subst hne
    rw [hface]
    have hafter : face { c with
        replicas := table
        collections := c.collections.insert n { config, groups } } n =
        ⟨some { config, groups }, none, Layout.none.placed placement⟩ := by
      simp [face, hidle, hlook, hempty]
    rw [hafter]
    exact .one hchange
  · have hsame : face { c with
        replicas := table
        collections := c.collections.insert name { config, groups } } n = c.face n := by
      simp [face, get?_insert_of_ne hne, hdraw.look_of_ne hne, look_register]
    rw [hsame]
    exact .none

theorem forceAborts_deleted (hs : c.Sound) {e₁ : Effects} {c₁ : Cluster}
    (h : c.forceAborts (.collectionDeleted name) = .ok (c₁, e₁)) :
    ∃ names, Rollbacks names c e₁ c₁ ∧ (c₁.face name).operation = none := by
  have hr := rollBackAll_rollbacks hs h
  refine ⟨_, hr, ?_⟩
  obtain ⟨hf, -⟩ | ⟨hn, -⟩ := hr.changes name
  · cases ho : c.operations.get? name with
    | none => rw [hf, face, ho]
    | some op =>
      apply hr.idle
      simp [affected, operation?, ho, (hs.named name op ho).1]
  · exact hr.idle name hn

theorem deleteCollection_step (hs : c.Sound) (h : c.deleteCollection name = .ok (c', e)) :
    Step c (.deleteCollection name) e c' ∧ c'.epoch = c.epoch := by
  obtain ⟨coll, c₁, e₁, hc, habort, rfl, rfl⟩ := deleteCollection_eq_ok.1 h
  obtain ⟨names, hroll, hidle⟩ := forceAborts_deleted hs habort
  obtain ⟨coll₁, hc₁⟩ := hroll.collection name hc
  have hs₁ := hroll.sound
  have hop : c₁.operations.get? name = none := hidle
  obtain ⟨-, htidy, htable, hmem⟩ := removeCollection_spec c₁.replicas name
  refine ⟨hroll.step ⟨fun n => ?_, fun n op h => ?_, htidy hs₁.tidy⟩ (fun n => if n = name then
    ⟨fun k => ∃ t ∈ coll₁.transfers, t.key = k, fun q p _ => (c₁.replicas.look name q p).isSome, []⟩
    else .still) (fun n => ?_) (fun n => ?_), hroll.epoch⟩
  · have hreg := hs₁.registered n
    by_cases hn : n = name
    · simp [SortedMap.contains, htable, hn]
    · simpa [SortedMap.contains, htable, hn, get?_erase_of_ne hn] using hreg
  · obtain ⟨hcoll, hk⟩ := hs₁.named n op h
    refine ⟨hcoll, ?_⟩
    by_cases hn : n = name
    · have h : c₁.operations.get? n = some op := h
      rw [hn, hop] at h
      cases h
    · simpa [SortedMap.contains, get?_erase_of_ne hn] using hk
  · rw [Effects.wake_deletion, transfers_eq hc₁]
    refine congrArg _ (ite_congr rfl (fun _ => Wake.congr (fun _ => Iff.rfl) (fun q p id => ?_) rfl)
      fun _ => rfl)
    rw [ReplicaTable.exists_replica (P := fun _ => True) (l := c₁.replicas.look name)
      fun r => by simp [hmem r], true_and]
  · by_cases hn : n = name
    · subst hn
      left
      have hafter : face { c₁ with
          replicas := (c₁.replicas.removeCollection n).1
          collections := c₁.collections.erase n } n = ⟨none, none, .none⟩ := by
        simp only [face, get?_erase_self, hop, Face.mk.injEq, true_and]
        funext q p
        simp [look, htable, Layout.none]
      rw [if_pos rfl, hafter, face, hc₁, hop]
      exact .deleted
    · right
      refine ⟨?_, if_neg hn⟩
      simp only [face, get?_erase_of_ne hn, Face.mk.injEq, true_and]
      funext q p
      simp [look, htable, hn]

theorem forceAborts_keyDeleted (hs : c.Sound) {key : ShardKey} {e₁ : Effects} {c₁ : Cluster}
    (h : c.forceAborts (.shardKeyDeleted name key) = .ok (c₁, e₁)) :
    ∃ names, Rollbacks names c e₁ c₁ ∧
      ∀ o, c₁.operations.get? name = some o → o.key ≠ some key := by
  have hr := rollBackAll_rollbacks hs h
  refine ⟨_, hr, fun o ho hkey => ?_⟩
  obtain ⟨hf, -⟩ | ⟨hn, -⟩ := hr.changes name
  · have ho' : c.operations.get? name = some o := (congrArg Face.operation hf).symm.trans ho
    have hidle := hr.idle name (by
      simp [affected, operation?, ho', hkey, Option.filter, (hs.named name o ho').1])
    rw [face, ho] at hidle
    cases hidle
  · have hidle := hr.idle name hn
    rw [face, ho] at hidle
    cases hidle

theorem deleteShardKey_step (hs : c.Sound) {key : ShardKey}
    (h : c.deleteShardKey name key = .ok (c', e)) :
    Step c (.deleteShardKey name key) e c' ∧ c'.epoch = c.epoch := by
  obtain ⟨coll, c₁, e₁, coll₁, table, removed, hc, -, hk, habort, hc₁, hrem, rfl, rfl⟩ :=
    deleteShardKey_eq_ok.1 h
  obtain ⟨names, hroll, hkey⟩ := forceAborts_keyDeleted hs habort
  have hs₁ := hroll.sound
  obtain ⟨r, hr⟩ : ∃ r, coll₁.groups.get? (some key) = some r := by
    apply contains_iff.1
    obtain ⟨hf, -⟩ | ⟨-, hback⟩ := hroll.changes name
    · have hsame := congrArg Face.collection hf
      rw [face, face, hc, hc₁] at hsame
      obtain rfl := Option.some.inj hsame
      exact hk
    · exact hback.groups hc hc₁ hk
  have hshards : shardsUnder coll₁ (some key) = r.shards := by simp [shardsUnder, hr]
  rw [hshards] at hrem ⊢
  obtain ⟨hdraw, hmem⟩ := removeShards_redrawn hrem
  have hd := Redone.edit (c := c₁) c₁.epoch (({ coll₁ with groups := coll₁.groups.erase (some key) }.take
    (fun t => r.shards.contains t.key.shard || r.shards.contains t.key.toShard)).1) hdraw (get?_same rfl)
  refine ⟨hroll.step (hd.sound hs₁ (contains_iff.2 ⟨_, hc₁⟩) fun o ho => (hs₁.named name o ho).1)
    (fun n => if n = name then
      ⟨fun k => ∃ t ∈ coll₁.transfers, (t.key.shard ∈ r.shards ∨ t.key.toShard ∈ r.shards) ∧ t.key = k,
        fun q p _ => q ∈ r.shards ∧ (c₁.replicas.look name q p).isSome, []⟩
    else .still) (fun n => ?_) (fun n => ?_), hroll.epoch⟩
  · rw [Effects.wake_deletion]
    refine congrArg _ (ite_congr rfl (fun _ => Wake.congr (fun k => ?_) (fun q p id => ?_) rfl)
      fun _ => rfl)
    · simp [Collection.take, and_assoc]
    · rw [ReplicaTable.exists_replica (P := (· ∈ r.shards)) hmem]
  · by_cases hn : n = name
    · subst hn
      left
      have hafter := hd.face
      rw [if_pos rfl]
      refine Eq.subst (motive := fun F => Change n _ _ _ _ F) hafter.symm ?_
      rw [face, hc₁]
      exact .keyDropped hr hkey
    · right
      exact ⟨hd.face_of_ne hn, if_neg hn⟩

/-- The transfers that a peer takes part in. -/
theorem mem_taken {peer : PeerId} {n : String} {key : TransferKey} :
    (n, key) ∈ (c.dropTransfersOf peer).2.1 ↔ ∃ coll, c.collections.get? n = some coll ∧
      ∃ t ∈ coll.transfers, t.key.involves peer = true ∧ t.key = key := by
  simp only [dropTransfersOf, List.mem_flatMap, List.mem_map, List.mem_filter, Prod.exists,
    Prod.mk.injEq]
  constructor
  · intro h
    obtain ⟨n', coll, hm, t, ⟨ht, hp⟩, rfl, rfl⟩ := h
    exact ⟨coll, mem_entries.1 hm, t, ht, hp, rfl⟩
  · intro h
    obtain ⟨coll, hc, t, ht, hp, rfl⟩ := h
    exact ⟨n, coll, mem_entries.2 hc, t, ⟨ht, hp⟩, rfl, rfl⟩

/-- The transfers that a peer was the source of. -/
theorem mem_stranded {peer : PeerId} {n : String} {key : TransferKey} :
    (n, key) ∈ (c.dropTransfersOf peer).2.2 ↔ ∃ coll, c.collections.get? n = some coll ∧
      ∃ t ∈ coll.transfers, t.key.source = peer ∧ t.key.target ≠ peer ∧ t.key = key := by
  have h : (n, key) ∈ (c.dropTransfersOf peer).2.2 ↔
      (n, key) ∈ (c.dropTransfersOf peer).2.1 ∧ key.target ≠ peer := by
    simp [dropTransfersOf, List.mem_filter]
  rw [h, mem_taken]
  constructor
  · intro h
    obtain ⟨⟨coll, hc, t, ht, hp, rfl⟩, hne⟩ := h
    have hsource : t.key.source = peer := by simpa [TransferKey.involves, hne] using hp
    exact ⟨coll, hc, t, ht, hsource, hne, rfl⟩
  · intro h
    obtain ⟨coll, hc, t, ht, hp, hne, rfl⟩ := h
    exact ⟨⟨coll, hc, t, ht, by simp [TransferKey.involves, hp], rfl⟩, hne⟩

/-- An operation needs its own peer, those that it fills and those that its transfers involve. -/
theorem dependsOn_iff {op : Operation} {peer : PeerId} : c.dependsOn op peer = true ↔
    op.peer = peer ∨ (∃ q, c.replicas.look op.collection q peer = some .resharding) ∨
      ∃ t ∈ c.transfers op.collection, t.resharding = true ∧ t.key.involves peer = true := by
  unfold dependsOn
  cases hr : c.replicas.replicas op.collection with
  | error err =>
    have hbare : ∀ q, c.replicas.look op.collection q peer ≠ some .resharding := by
      intro q hq
      cases hs : c.replicas.collections.get? op.collection with
      | none => simp [look, hs] at hq
      | some shards =>
        simp [ReplicaTable.replicas, shardsOf_eq_ok.2 hs, bind, Except.bind, pure, Except.pure] at hr
    simp [hbare, Operation.involves]
  | ok replicas =>
    have hfilled : replicas.any (fun r => r.peer == peer && r.state == .resharding) = true ↔
        ∃ q, c.replicas.look op.collection q peer = some .resharding := by
      simp only [List.any_eq_true, Bool.and_eq_true, beq_iff_eq]
      constructor
      · intro h
        obtain ⟨r, hin, rfl, hs⟩ := h
        exact ⟨r.shard, hs ▸ (replicas_ok hr).1 hin⟩
      · intro h
        obtain ⟨q, hq⟩ := h
        exact ⟨⟨q, peer, .resharding⟩, (replicas_ok hr).2 hq, rfl, rfl⟩
    simp only [Bool.or_eq_true, hfilled, or_assoc, Operation.involves, beq_iff_eq, List.any_eq_true,
      Bool.and_eq_true]

/-- Operations that outlast the removal of a peer do not depend on it. -/
theorem not_dependsOn {op : Operation} {peer : PeerId} {coll : Collection}
    (hc : c.collections.get? op.collection = some coll) (h : c.dependsOn op peer = false) :
    op.peer ≠ peer ∧ (∀ q, c.replicas.look op.collection q peer ≠ some .resharding) ∧
      ∀ t ∈ coll.transfers, t.resharding = true → t.key.involves peer = false := by
  have hnot : ¬c.dependsOn op peer = true := by simp [h]
  rw [dependsOn_iff, transfers_eq hc] at hnot
  simpa using hnot

theorem forceAborts_peerRemoved (hs : c.Sound) {peer : PeerId} {force : Bool} {e₁ : Effects}
    {c₁ : Cluster} (h : c.forceAborts (.peerRemoved peer force) = .ok (c₁, e₁)) :
    ∃ names, Rollbacks names c e₁ c₁ ∧ ∀ n coll o, c₁.collections.get? n = some coll →
      c₁.operations.get? n = some o → o.peer ≠ peer ∧
        (∀ q, c₁.replicas.look n q peer ≠ some .resharding) ∧
        ∀ t ∈ coll.transfers, t.resharding = true → t.key.involves peer = false := by
  have hr := rollBackAll_rollbacks hs h
  refine ⟨_, hr, fun n coll o hc ho => ?_⟩
  have hlive : n ∉ c.affected (.peerRemoved peer force) := fun hn => by
    have hidle := hr.idle n hn
    rw [face, ho] at hidle
    cases hidle
  obtain ⟨hf, -⟩ | ⟨hn, -⟩ := hr.changes n
  · simp only [face, Face.mk.injEq] at hf
    obtain ⟨hfc, hfo, hfl⟩ := hf
    rw [hc] at hfc
    rw [ho] at hfo
    have hname := (hs.named n o hfo.symm).1
    have hdep : c.dependsOn o peer = false := by
      cases hd : c.dependsOn o peer with
      | false => rfl
      | true =>
        refine absurd ?_ hlive
        simp only [affected, List.mem_map, List.mem_filter]
        exact ⟨o, ⟨mem_values.2 ⟨n, hfo.symm⟩, hd⟩, hname⟩
    rw [hfl]
    rw [← hname] at hfc ⊢
    exact not_dependsOn hfc.symm hdep
  · exact absurd hn hlive

theorem evict_get? (peer : PeerId) (table : ReplicaTable) (n : String) :
    (c.evict peer table).collections.get? n =
      (c.collections.get? n).map (fun coll => (coll.take (·.key.involves peer)).1) :=
  get?_map _ _ n

theorem evict_contains (peer : PeerId) (table : ReplicaTable) (n : String) :
    (c.evict peer table).collections.contains n = c.collections.contains n := by
  simp [SortedMap.contains, evict_get?]

theorem mem_evictions {peer : PeerId} {force : Bool} {table : ReplicaTable} {n : String} {q : ShardId}
    {p : PeerId} : Cleanup.drop ⟨n, p, q⟩ ∈ (c.evictions peer force table).cleanup ↔
      (n, q, p) ∈ (c.dropTransfersOf peer).2.2.map (fun x => (x.1, x.2.toShard, x.2.target)) ∨
        ∃ r, (n, r) ∈ table.onPeer peer ∧ r.shard = q ∧ r.peer = p := by
  simp only [evictions, List.mem_append, List.mem_map, Prod.exists, Prod.mk.injEq, Cleanup.drop.injEq,
    TransferKey.targetLocation, Replica.location, Location.mk.injEq]
  refine or_congr ⟨fun h => ?_, fun h => ?_⟩ ⟨fun h => ?_, fun h => ?_⟩
  · obtain ⟨_, key, hin, rfl, rfl, rfl⟩ := h
    exact ⟨_, key, hin, rfl, rfl, rfl⟩
  · obtain ⟨_, key, hin, rfl, rfl, rfl⟩ := h
    exact ⟨_, key, hin, rfl, rfl, rfl⟩
  · obtain ⟨_, r, hin, rfl, rfl, rfl⟩ := h
    exact ⟨r, hin, rfl, rfl⟩
  · obtain ⟨r, hin, rfl, rfl⟩ := h
    exact ⟨n, r, hin, rfl, rfl, rfl⟩

theorem evictions_wake (peer : PeerId) (force : Bool) (table : ReplicaTable) (n : String) :
    (c.evictions peer force table).wake n =
      ⟨fun key => (n, key) ∈ (c.dropTransfersOf peer).2.1, fun q p _ =>
        (n, q, p) ∈ (c.dropTransfersOf peer).2.2.map (fun x => (x.1, x.2.toShard, x.2.target)) ∨
          ∃ r, (n, r) ∈ table.onPeer peer ∧ r.shard = q ∧ r.peer = p, []⟩ := by
  refine Wake.congr (fun key => ?_) (fun q p id => ?_) rfl
  · simp [evictions]
  · rw [mem_evictions]
    simp [evictions]

/-- The replicas that a leaving peer was filling elsewhere. -/
theorem mem_strandedReplicas {peer : PeerId} {n : String} {coll : Collection}
    (hc : c.collections.get? n = some coll) {q : ShardId} {p : PeerId} :
    (n, q, p) ∈ (c.dropTransfersOf peer).2.2.map (fun x => (x.1, x.2.toShard, x.2.target)) ↔
      ∃ t ∈ coll.transfers, t.key.source = peer ∧ t.key.target ≠ peer ∧ t.key.destination = (q, p) := by
  simp only [List.mem_map, Prod.exists, Prod.mk.injEq, mem_stranded]
  constructor
  · intro h
    obtain ⟨_, key, ⟨coll', hc', t, ht, hp, hne, rfl⟩, rfl, rfl, rfl⟩ := h
    obtain rfl := Option.some.inj (hc.symm.trans hc')
    exact ⟨t, ht, hp, hne, rfl⟩
  · intro h
    obtain ⟨t, ht, hp, hne, hd⟩ := h
    obtain ⟨rfl, rfl⟩ := Prod.mk.inj hd
    exact ⟨n, t.key, ⟨coll, hc, t, ht, hp, hne, rfl⟩, rfl, rfl, rfl⟩

section
variable {peer : PeerId} {table table' : ReplicaTable}
  (hcut : removeReplicas c.replicas
    ((c.dropTransfersOf peer).2.2.map (fun x => (x.1, x.2.toShard, x.2.target))) = .ok table)
include hcut

theorem mem_hosted {n : String} {coll : Collection} (hc : c.collections.get? n = some coll)
    {q : ShardId} {p : PeerId} :
    (∃ r, (n, r) ∈ table.onPeer peer ∧ r.shard = q ∧ r.peer = p) ↔
      p = peer ∧ (c.replicas.look n q p).isSome := by
  obtain ⟨-, -, -, hlook⟩ := removeReplicas_spec hcut
  have hfree : ∀ q, table.look n q peer = c.replicas.look n q peer := by
    intro q
    rw [hlook, if_neg]
    intro hm
    obtain ⟨t, -, -, hne, hd⟩ := (mem_strandedReplicas hc).1 hm
    exact hne (Prod.mk.inj hd).2
  simp only [mem_onPeer]
  constructor
  · intro h
    obtain ⟨r, ⟨hp, hl⟩, rfl, rfl⟩ := h
    rw [hp, hfree] at hl
    exact ⟨hp, by rw [hp, hl]; rfl⟩
  · intro h
    obtain ⟨rfl, hl⟩ := h
    obtain ⟨s, hs⟩ := Option.isSome_iff_exists.1 hl
    exact ⟨⟨q, p, s⟩, ⟨rfl, (hfree q).trans hs⟩, rfl, rfl⟩

theorem look_evicted (hcut' : removeReplicas table
      ((table.onPeer peer).map (fun x => (x.1, x.2.shard, peer))) = .ok table')
    {n : String} {coll : Collection} (hc : c.collections.get? n = some coll) :
    table'.look n = (c.replicas.look n).evicted peer coll.transfers := by
  obtain ⟨-, -, -, hlook⟩ := removeReplicas_spec hcut
  obtain ⟨-, -, -, hlook'⟩ := removeReplicas_spec hcut'
  have hmem : ∀ q p, (n, q, p) ∈ (table.onPeer peer).map (fun x => (x.1, x.2.shard, peer)) ↔
      p = peer ∧ (c.replicas.look n q p).isSome := by
    intro q p
    rw [← mem_hosted hcut hc]
    simp only [List.mem_map, Prod.exists, Prod.mk.injEq]
    constructor
    · intro h
      obtain ⟨_, r, hr, rfl, rfl, rfl⟩ := h
      exact ⟨r, hr, rfl, (mem_onPeer.1 hr).1⟩
    · intro h
      obtain ⟨r, hr, rfl, rfl⟩ := h
      exact ⟨n, r, hr, rfl, rfl, (mem_onPeer.1 hr).1.symm⟩
  funext q p
  rw [hlook', hlook, Layout.evicted]
  simp only [hmem, mem_strandedReplicas hc]
  by_cases hp : p = peer
  · subst hp
    cases hl : c.replicas.look n q p <;> simp
  · have hiff : (∃ t ∈ coll.transfers, t.key.source = peer ∧ t.key.target ≠ peer ∧
        t.key.destination = (q, p)) ↔
        ∃ t ∈ coll.transfers, t.key.source = peer ∧ t.key.destination = (q, p) := by
      constructor
      · intro h
        obtain ⟨t, ht, hs, -, hd⟩ := h
        exact ⟨t, ht, hs, hd⟩
      · intro h
        obtain ⟨t, ht, hs, hd⟩ := h
        exact ⟨t, ht, hs, fun hx => hp ((Prod.mk.inj hd).2.symm.trans hx), hd⟩
    simp [hp, hiff]

/-- A name that is not in use has no replicas to lose. -/
theorem look_evicted_none (hs : c.Sound) (hcut' : removeReplicas table
      ((table.onPeer peer).map (fun x => (x.1, x.2.shard, peer))) = .ok table') {n : String}
    (hc : c.collections.get? n = none) :
    (∀ q p, table.look n q p = none) ∧ table'.look n = c.replicas.look n := by
  obtain ⟨-, -, -, hlook⟩ := removeReplicas_spec hcut
  obtain ⟨-, -, -, hlook'⟩ := removeReplicas_spec hcut'
  have hempty : c.replicas.look n = Layout.none := congrArg Face.look (hs.face_none hc)
  have hcleared : ∀ q p, table.look n q p = none := by
    intro q p
    rw [hlook, hempty]
    simp [Layout.none]
  refine ⟨hcleared, ?_⟩
  funext q p
  rw [hlook', hcleared, hempty]
  simp [Layout.none]

theorem evict_sound (hs : c.Sound) (hcut' : removeReplicas table
      ((table.onPeer peer).map (fun x => (x.1, x.2.shard, peer))) = .ok table') :
    (c.evict peer table').Sound := by
  obtain ⟨-, htidy, hknown, -⟩ := removeReplicas_spec hcut
  obtain ⟨-, htidy', hknown', -⟩ := removeReplicas_spec hcut'
  refine ⟨fun n => ?_, fun n op hop => ?_, htidy' (htidy hs.tidy)⟩
  · rw [evict_contains]
    exact (hknown' n).trans ((hknown n).trans (hs.registered n))
  · rw [evict_contains]
    exact hs.named n op hop

theorem evict_still (hs : c.Sound) (hcut' : removeReplicas table
      ((table.onPeer peer).map (fun x => (x.1, x.2.shard, peer))) = .ok table') (force : Bool)
    {n : String} (hc : c.collections.get? n = none) :
    (c.evict peer table').face n = c.face n ∧ (c.evictions peer force table).wake n = .still := by
  obtain ⟨hcleared, hlook⟩ := look_evicted_none hcut hs hcut' hc
  constructor
  · simp only [face, evict_get?, hc, Option.map_none, Face.mk.injEq, true_and]
    exact ⟨rfl, hlook⟩
  · rw [evictions_wake]
    refine Wake.congr (fun key => ?_) (fun q p id => ?_) rfl
    · simp [mem_taken, hc]
    · have hkept : (n, q, p) ∉
          (c.dropTransfersOf peer).2.2.map (fun x => (x.1, x.2.toShard, x.2.target)) := by
        intro hin
        obtain ⟨⟨m, key⟩, hm, hx⟩ := List.mem_map.1 hin
        obtain rfl : m = n := (Prod.mk.inj hx).1
        obtain ⟨coll, hcoll, -⟩ := mem_stranded.1 hm
        cases hc.symm.trans hcoll
      simp [hkept, mem_onPeer, hcleared]

theorem evict_change (hcut' : removeReplicas table
      ((table.onPeer peer).map (fun x => (x.1, x.2.shard, peer))) = .ok table') {force : Bool}
    {raise : UInt64} {n : String} {coll : Collection} (hc : c.collections.get? n = some coll)
    (hfree : ∀ o, c.operations.get? n = some o → o.peer ≠ peer ∧
      (∀ q, c.replicas.look n q peer ≠ some .resharding) ∧
      ∀ t ∈ coll.transfers, t.resharding = true → t.key.involves peer = false)
    (hbare : force = false → ∀ q, c.replicas.look n q peer = none) :
    Change n raise (.removePeer peer force) (c.face n) ((c.evictions peer force table).wake n)
      ((c.evict peer table').face n) := by
  have hw : (c.evictions peer force table).wake n =
      ⟨fun key => ∃ t ∈ coll.transfers, t.key.involves peer = true ∧ t.key = key,
        fun q p _ => (p = peer ∧ (c.replicas.look n q p).isSome) ∨ ∃ t ∈ coll.transfers,
          t.key.source = peer ∧ t.key.target ≠ peer ∧ t.key.destination = (q, p), []⟩ := by
    rw [evictions_wake]
    refine Wake.congr (fun key => ?_) (fun q p id => ?_) rfl
    · simp [mem_taken, hc]
    · rw [mem_hosted hcut hc, mem_strandedReplicas hc, or_comm]
  have hafter : (c.evict peer table').face n = ⟨some (coll.take (·.key.involves peer)).1,
      c.operations.get? n, (c.replicas.look n).evicted peer coll.transfers⟩ := by
    simp only [face, evict_get?, hc, Option.map_some, Face.mk.injEq, true_and]
    exact ⟨rfl, look_evicted hcut hcut' hc⟩
  rw [hw, hafter, face, hc]
  exact .evicted hfree hbare

end

theorem removePeer_step (hs : c.Sound) {peer : PeerId} {force : Bool}
    (h : c.removePeer peer force = .ok (c', e)) :
    Step c (.removePeer peer force) e c' ∧ c'.epoch = c.epoch := by
  obtain ⟨-, hhosted, c₁, e₁, table, table', habort, hcut, hcut', rfl, rfl⟩ := removePeer_eq_ok.1 h
  obtain ⟨names, hroll, hfree⟩ := forceAborts_peerRemoved hs habort
  have hbare : force = false → ∀ n q, c₁.replicas.look n q peer = none := by
    intro hforce n q
    apply hroll.look_none
    cases hl : c.replicas.look n q peer with
    | none => rfl
    | some s =>
      have hm : (n, ⟨q, peer, s⟩) ∈ c.replicas.onPeer peer := mem_onPeer.2 ⟨rfl, hl⟩
      rw [hhosted hforce] at hm
      cases hm
  refine ⟨hroll.step (evict_sound hcut hroll.sound hcut') (c₁.evictions peer force table).wake
    (fun n => Effects.wake_append n _ _) (fun n => ?_), hroll.epoch⟩
  cases hc : c₁.collections.get? n with
  | none => exact .inr (evict_still hcut hroll.sound hcut' force hc)
  | some coll =>
    exact .inl (evict_change hcut hcut' hc (fun o ho => hfree n coll o hc ho) fun hf => hbare hf n)

end ShardCluster.Cluster
