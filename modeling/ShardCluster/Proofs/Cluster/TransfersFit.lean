import ShardCluster.Proofs.Cluster.FitGroups
/-! In every cluster whose operations start by plans, the replicas, the transfers and the operation of
each collection fit together. -/
namespace ShardCluster
open SortedMap

theorem Operation.settled_eq (o : Operation) (transfers : List Transfer) :
    o.settled transfers = { o with stage := (o.settled transfers).stage } := by
  unfold settled
  split <;> rfl

/-- A transfer that no other one has the key of. -/
theorem TransferKey.checkAgainst_ok {key : TransferKey} {transfers : List Transfer} {u : Unit}
    (h : key.checkAgainst transfers = .ok u) : ∀ t ∈ transfers, t.key ≠ key := by
  induction transfers with
  | nil => simp
  | cons t rest ih =>
    simp only [checkAgainst, ite_eq_ok, error_eq_ok, and_false, false_or] at h
    obtain ⟨hne, -, hrest⟩ := h
    exact List.forall_mem_cons.2 ⟨hne, ih hrest⟩

theorem Layout.evicted_eq_some {l : Layout} {peer : PeerId} {transfers : List Transfer} {q : ShardId}
    {p : PeerId} {s : ReplicaState} : l.evicted peer transfers q p = some s ↔
      ¬(p = peer ∨ ∃ t ∈ transfers, t.key.source = peer ∧ t.key.destination = (q, p)) ∧
        l q p = some s := by
  unfold evicted
  split
  · rename_i h
    simp [h]
  · rename_i h
    simp [h]

namespace Fit
variable {coll coll' : Collection} {op : Option Operation} {o : Operation} {l l' : Layout}
  {r r' : Router} {t : Transfer}

/-- Only the transfers and the replicas change, while there is no operation. -/
theorem retransfer (h : Fit coll none l) {transfers : List Transfer}
    (hl : ∀ q p, (l' q p).isSome → coll.shardSet.contains q = true)
    (hk : (transfers.map (·.key)).Nodup) (hp : Transfer.Paced transfers)
    (hfree : ∀ q p, l' q p ≠ some .resharding) (hc : ∀ t ∈ transfers, t.Copies l') :
    Fit { coll with transfers } none l' :=
  ⟨h.parted, hl, hk, hp, fun _ => ⟨hfree, hc⟩, fun _ _ ho => by cases ho⟩

/-- Whole shards are copied while there is no operation. -/
theorem operation_none (h : Fit coll op l) (ha : Face.Agrees ⟨some coll, op, l⟩)
    (ht : t ∈ coll.transfers) (hm : t.resharding = false) : op = none := by
  cases op with
  | none => rfl
  | some o =>
    obtain ⟨r, hr, -⟩ := ha.exists_router
    rw [h.slices hr t ht] at hm
    cases hm

/-- Two copies of whole shards never make the same replica. -/
theorem destination_ne (h : Fit coll none l) {t' : Transfer} (ht : t ∈ coll.transfers)
    (ht' : t' ∈ coll.transfers) (hk : t'.key ≠ t.key) : t'.key.destination ≠ t.key.destination := by
  obtain ⟨-, hcopies⟩ := h.idle rfl
  exact h.paced.distinct ht' ht (fun he => hk (congrArg Transfer.key he)) (hcopies t' ht').running
    (hcopies t ht).running

theorem replicated (h : Fit coll none l) {epoch : UInt64} (hm : t.method = .wholeShard)
    (hq : t.key.shard = t.key.toShard) (hs : l t.key.shard t.key.source = some .active)
    (hd : l t.key.shard t.key.target = none) (hk : t.key.checkAgainst coll.transfers = .ok ()) :
    Fit { coll with transfers := coll.transfers ++ [{ t with status := .running, epoch }] } none
      (l.put t.key.shard t.key.target .partialCopy) := by
  obtain ⟨hfree, hcopies⟩ := h.idle rfl
  have hne := TransferKey.checkAgainst_ok hk
  -- a replica that exists is not the one that is made
  have hkeep : ∀ q p s, l q p = some s → l.put t.key.shard t.key.target .partialCopy q p = some s := by
    intro q p s hl
    have hnot : ¬(q = t.key.shard ∧ p = t.key.target) := by
      intro he
      rw [he.1, he.2, hd] at hl
      cases hl
    simp [Layout.put, hnot, hl]
  refine h.retransfer (fun q p hsome => ?_) ?_ ?_ (fun q p hres => ?_) fun t' ht' => ?_
  · by_cases he : q = t.key.shard
    · exact he ▸ h.housed _ t.key.source (by simp [hs])
    · exact h.housed q p (by simpa [Layout.put, he] using hsome)
  · rw [List.map_append]
    refine List.nodup_append.2 ⟨h.keys, by simp, fun a ha b hb => ?_⟩
    obtain ⟨t', ht', rfl⟩ := List.mem_map.1 ha
    obtain rfl : b = t.key := by simpa using hb
    exact hne t' ht'
  · refine List.pairwise_append.2 ⟨h.paced, by simp, fun a ha b hb _ _ he => ?_⟩
    obtain rfl := List.mem_singleton.1 hb
    obtain ⟨hshard, htarget⟩ : a.key.toShard = t.key.toShard ∧ a.key.target = t.key.target :=
      Prod.mk.inj he
    have hl := (hcopies a ha).target
    rw [hshard, htarget, ← hq, hd] at hl
    cases hl
  · simp only [Layout.put] at hres
    split at hres
    · cases hres
    · exact hfree q p hres
  · obtain ht' | ht' := List.mem_append.1 ht'
    · have hc := hcopies t' ht'
      exact hc.congr (hkeep _ _ _ hc.source) (hkeep _ _ _ hc.target)
    · obtain rfl := List.mem_singleton.1 ht'
      refine ⟨by simp [Transfer.resharding, hm], hq, rfl, hkeep _ _ _ hs, ?_⟩
      simp [Layout.put, hq]

/-- A copy that leaves the table lets go of the replica that it made and of no other. -/
theorem copy_removed (h : Fit coll none l) (ht : t ∈ coll.transfers) {s : Option ReplicaState}
    (hs : s ≠ some .resharding)
    (hl : ∀ q p, l' q p = if q = t.key.toShard ∧ p = t.key.target then s else l q p) :
    Fit { coll with transfers := coll.transfers.filter (fun t' => !(t'.key == t.key)) } none l' := by
  obtain ⟨hfree, hcopies⟩ := h.idle rfl
  have hc := hcopies t ht
  refine h.retransfer (fun q p hsome => ?_) (Transfer.keys_filter h.keys _) (h.paced.filter _)
    (fun q p hres => ?_) fun t' ht' => ?_
  · rw [hl] at hsome
    split at hsome
    · rename_i he
      exact he.1 ▸ h.housed _ t.key.target (by simp [hc.target])
    · exact h.housed q p hsome
  · rw [hl] at hres
    split at hres
    · exact hs hres
    · exact hfree q p hres
  · obtain ⟨hin, hne⟩ := List.mem_filter.1 ht'
    have hc' := hcopies t' hin
    refine hc'.congr ?_ ?_
    · have hnot : ¬(t'.key.shard = t.key.toShard ∧ t'.key.source = t.key.target) := by
        intro he
        have hsource := hc'.source
        rw [he.1, he.2, hc.target] at hsource
        cases hsource
      rw [hl, if_neg hnot]
      exact hc'.source
    · have hnot : ¬(t'.key.toShard = t.key.toShard ∧ t'.key.target = t.key.target) := fun he =>
        h.destination_ne ht hin (by simpa using hne) (Prod.ext he.1 he.2)
      rw [hl, if_neg hnot]
      exact hc'.target

/-- A transfer of the operation is done: what waited for its replica runs. -/
theorem sliced (h : Fit coll (some o) l)
    (ht : t ∈ coll.transfers) (hrun : t.status = .running) {transfers : List Transfer}
    {next : Option Transfer}
    (hn : Cluster.release t.key.destination (coll.transfers.eraseP (·.key == t.key)) =
      (transfers, next)) : Fit { coll with transfers } (some (o.settled transfers)) l := by
  rw [Transfer.eraseP_key h.keys] at hn
  obtain rfl : (Cluster.release t.key.destination
      (coll.transfers.filter (fun t' => !(t'.key == t.key)))).1 = transfers := by rw [hn]
  have hkeys := Transfer.keys_filter h.keys (fun t' => !(t'.key == t.key))
  have hpaced := h.paced.filter (fun t' => !(t'.key == t.key))
  have hlater : ∀ t' ∈ coll.transfers.filter (fun t' => !(t'.key == t.key)),
      t'.status = .running → t'.key.destination ≠ t.key.destination := by
    intro t' ht' hrun'
    obtain ⟨hin, hne⟩ := List.mem_filter.1 ht'
    exact h.paced.distinct hin ht (fun he => by simp [he] at hne) hrun' hrun
  refine ⟨h.parted, h.housed, by rw [Cluster.keys_release]; exact hkeys, Cluster.release_paced hpaced hlater, nofun,
    fun o' r ho hr => ?_⟩
  obtain rfl := Option.some.inj ho
  rw [Operation.settled_eq] at hr
  obtain ⟨hfill, hfeeds, hstage⟩ := h.live o r rfl hr
  have hstart : o.stage = .starting := hstage.1 (List.ne_nil_of_mem ht)
  -- releasing changes nothing but a status
  have hfed : ∀ t' ∈ (Cluster.release t.key.destination
      (coll.transfers.filter (fun t' => !(t'.key == t.key)))).1, t'.Feeds l o r := by
    intro t' ht'
    obtain ⟨t'', ht'', hk, hm, -⟩ := Cluster.mem_release ht'
    obtain ⟨h₁, h₂, h₃, h₄, h₅⟩ := hfeeds t'' (List.mem_filter.1 ht'').1
    exact ⟨by simpa [Transfer.resharding, hm] using h₁, hk ▸ h₂, hk ▸ h₃, hk ▸ h₄, hk ▸ h₅⟩
  rw [Operation.settled_eq]
  refine ⟨⟨hfill.up, hfill.alone, hfill.down⟩, fun t' ht' => ?_, ?_⟩
  · obtain ⟨h₁, h₂, h₃, h₄, h₅⟩ := hfed t' ht'
    exact ⟨h₁, h₂, h₃, h₄, h₅⟩
  · simp only [Operation.settled, hstart, and_true]
    cases hrest : (Cluster.release t.key.destination
        (coll.transfers.filter (fun t' => !(t'.key == t.key)))).1 with
    | nil => simp
    | cons x rest =>
      have hslice := (hfed x (by rw [hrest]; exact List.mem_cons_self)).slice
      simp [hslice, hstart]

/-- A replica that nothing needs changes its state or goes. -/
theorem unused (h : Fit coll op l) {q : ShardId} {p : PeerId}
    (hu : l.Unused coll op q p) {s : Option ReplicaState} (hs : s ≠ some .resharding)
    (hin : s.isSome → (l q p).isSome)
    (hl : ∀ q' p', l' q' p' = if q' = q ∧ p' = p then s else l q' p') : Fit coll op l' := by
  have hkeep : ∀ q' p', ¬(q' = q ∧ p' = p) → l' q' p' = l q' p' := fun q' p' hne => by
    rw [hl, if_neg hne]
  have hhere : l' q p = s := by simp [hl]
  have hsource : ∀ t ∈ coll.transfers,
      l' t.key.shard t.key.source = l t.key.shard t.key.source := fun t ht =>
    hkeep _ _ (hu.transfers t ht).1
  have htarget : ∀ t ∈ coll.transfers,
      l' t.key.toShard t.key.target = l t.key.toShard t.key.target := fun t ht =>
    hkeep _ _ fun he => (hu.transfers t ht).2 (Prod.ext he.1 he.2)
  refine ⟨h.parted, fun q' p' hsome => ?_, h.keys, h.paced, fun ho => ?_, fun o r ho hr => ?_⟩
  · by_cases he : q' = q ∧ p' = p
    · obtain ⟨rfl, rfl⟩ := he
      exact h.housed q' p' (hin (hhere ▸ hsome))
    · exact h.housed q' p' (hkeep q' p' he ▸ hsome)
  · obtain ⟨hfree, hcopies⟩ := h.idle ho
    refine ⟨fun q' p' hres => ?_, fun t ht => ?_⟩
    · rw [hl] at hres
      split at hres
      · exact hs hres
      · exact hfree q' p' hres
    · have hc := hcopies t ht
      exact hc.congr ((hsource t ht).trans hc.source) ((htarget t ht).trans hc.target)
  · obtain ⟨hfill, hfeeds, hstage⟩ := h.live o r ho hr
    obtain ⟨hfree, hne⟩ := hu.operation o ho
    refine ⟨hfill.congr (fun q' p' => ?_) fun p' hnone => ?_, fun t ht => ?_, hstage⟩
    · by_cases he : q' = q ∧ p' = p
      · obtain ⟨rfl, rfl⟩ := he
        rw [hhere]
        exact ⟨fun hx => absurd hx hs, fun hx => absurd hx hfree⟩
      · rw [hkeep q' p' he]
    · exact (hkeep _ _ fun he => hne he.1).trans hnone
    · have hc := hfeeds t ht
      exact hc.congr ((hsource t ht).trans hc.source) ((htarget t ht).trans hc.target)

/-- The whole copies that a leaving peer takes no part in go on. -/
theorem evicted_copies (h : Fit coll none l) {peer : PeerId} (ht : t ∈ coll.transfers)
    (hstay : t.key.involves peer = false) : t.Copies (l.evicted peer coll.transfers) := by
  obtain ⟨-, hcopies⟩ := h.idle rfl
  have hc := hcopies t ht
  have hstay : t.key.source ≠ peer ∧ t.key.target ≠ peer := by
    simpa [TransferKey.involves] using hstay
  refine hc.congr (Layout.evicted_eq_some.2 ⟨fun hx => ?_, hc.source⟩)
    (Layout.evicted_eq_some.2 ⟨fun hx => ?_, hc.target⟩)
  · -- a replica that is being filled is no source
    obtain hx | ⟨t', ht', -, hdest⟩ := hx
    · exact hstay.1 hx
    · have hl := (hcopies t' ht').target
      obtain ⟨hq, hp⟩ : t'.key.toShard = t.key.shard ∧ t'.key.target = t.key.source :=
        Prod.mk.inj hdest
      rw [hq, hp, hc.source] at hl
      cases hl
  · obtain hx | ⟨t', ht', hpeer, hdest⟩ := hx
    · exact hstay.2 hx
    · refine h.destination_ne ht ht' (fun hk => ?_) hdest
      rw [hk] at hpeer
      exact hstay.1 hpeer

/-- An operation that does not need a leaving peer keeps what it has claimed. -/
theorem evicted_live (h : Fit coll (some o) l) (hr : coll.router o.key = .ok r) {peer : PeerId}
    (hfree : ∀ q, l q peer ≠ some .resharding)
    (hstay : ∀ t ∈ coll.transfers, t.key.involves peer = false) :
    (l.evicted peer coll.transfers).Filled o r ∧
      ∀ t ∈ coll.transfers, t.Feeds (l.evicted peer coll.transfers) o r := by
  obtain ⟨hfill, hfeeds, -⟩ := h.live o r rfl hr
  have hout : ∀ t ∈ coll.transfers, t.key.source ≠ peer ∧ t.key.target ≠ peer := fun t ht => by
    simpa [TransferKey.involves] using hstay t ht
  have hkeep : ∀ {q p s}, p ≠ peer → l q p = some s →
      l.evicted peer coll.transfers q p = some s := by
    intro q p s hp hl
    refine Layout.evicted_eq_some.2 ⟨fun hx => ?_, hl⟩
    obtain hx | ⟨t, ht, hsource, -⟩ := hx
    · exact hp hx
    · exact (hout t ht).1 hsource
  refine ⟨hfill.congr (fun q p => ⟨fun hs => (Layout.evicted_eq_some.1 hs).2, fun hs => ?_⟩)
    fun p hl => ?_, fun t ht => ?_⟩
  · exact hkeep (fun he => hfree q (he ▸ hs)) hs
  · cases hx : l.evicted peer coll.transfers o.shard p with
    | none => rfl
    | some s =>
      rw [(Layout.evicted_eq_some.1 hx).2] at hl
      cases hl
  · have hc := hfeeds t ht
    exact hc.congr (hkeep (hout t ht).1 hc.source) (hkeep (hout t ht).2 hc.target)

/-- A peer goes, with its replicas and transfers. -/
theorem evicted (h : Fit coll op l) {peer : PeerId}
    (ho : ∀ o, op = some o → o.peer ≠ peer ∧ (∀ q, l q peer ≠ some .resharding) ∧
      ∀ t ∈ coll.transfers, t.resharding = true → t.key.involves peer = false) :
    Fit (coll.take (·.key.involves peer)).1 op (l.evicted peer coll.transfers) := by
  refine ⟨h.parted, fun q p hs => ?_, Transfer.keys_filter h.keys _, h.paced.filter _,
    fun hop => ?_, fun o r hop hx => ?_⟩
  · obtain ⟨s, hs⟩ := Option.isSome_iff_exists.1 hs
    exact h.housed q p (by simp [(Layout.evicted_eq_some.1 hs).2])
  · subst hop
    refine ⟨fun q p hs => (h.idle rfl).1 q p (Layout.evicted_eq_some.1 hs).2, fun t ht => ?_⟩
    obtain ⟨hin, hstay⟩ := List.mem_filter.1 ht
    exact h.evicted_copies hin (by simpa using hstay)
  · subst hop
    obtain ⟨-, hfree, hslices⟩ := ho o rfl
    obtain ⟨-, hfeeds, hstage⟩ := h.live o r rfl hx
    have hstay : ∀ t ∈ coll.transfers, t.key.involves peer = false := fun t ht =>
      hslices t ht (hfeeds t ht).slice
    have hall : (coll.take (·.key.involves peer)).1.transfers = coll.transfers :=
      List.filter_eq_self.2 fun t ht => by simpa using hstay t ht
    obtain ⟨hfill, hfeeds⟩ := h.evicted_live hx hfree hstay
    rw [hall]
    exact ⟨hfill, hfeeds, hstage⟩

end Fit

/-- An entry that starts an operation of a collection carries a plan for it. -/
def Face.Planned (F : Face) (name : String) (entry : Entry) : Prop :=
  ∀ plan, entry = .startResharding plan → plan.operation.collection = name →
    F.operation = none ∧ ∃ coll r, F.collection = some coll ∧
      coll.router plan.operation.key = .ok r ∧ plan.Fits coll F.look r

namespace Face.Fits

theorem rollsBack {F F' : Face} {w : Wake} (h : F.Fits) (hb : RollsBack F w F') : F'.Fits :=
  ⟨h.agrees.rollsBack hb, Fit.rollsBack h.agrees h.fit hb⟩

theorem change {name : String} {epoch : UInt64} {entry : Entry} {F F' : Face} {w : Wake}
    (h : F.Fits) (hp : F.Planned name entry) (hc : Change name epoch entry F w F') : F'.Fits := by
  refine ⟨h.agrees.change hc, fun coll' hcoll => ?_⟩
  obtain ⟨ha, hfit⟩ := h
  cases hc with
  | @foundAuto config placement n hm hplaced hh =>
    obtain rfl := Option.some.inj hcoll
    exact .found n hplaced
  | @foundCustom config placement hm =>
    obtain rfl := Option.some.inj hcoll
    exact ⟨.empty, nofun, .nil, .nil, fun _ => ⟨nofun, nofun⟩, fun _ _ ho => by cases ho⟩
  | deleted => cases hcoll
  | @keyAdded coll op l key placement n hm hk hplaced hn hh =>
    obtain rfl := Option.some.inj hcoll
    exact (hfit coll rfl).keyAdded ha n hk hplaced hn
  | @keyDropped coll op l key r hr ho =>
    obtain rfl := Option.some.inj hcoll
    exact (hfit coll rfl).keyDropped ha hr ho
  | @started coll l plan r r' hn ht hr hr' hl =>
    obtain rfl := Option.some.inj hcoll
    obtain ⟨-, coll', x, hcoll', hx, hfits⟩ := hp plan rfl hn
    obtain rfl := Option.some.inj hcoll'
    obtain rfl := Except.ok.inj (hr.symm.trans hx)
    have hi : r.Idle := ha.rests (Collection.router_eq_ok.1 hr).2
    exact (hfit coll rfl).started hi hr hr' hfits epoch
  | @readCommitted coll o l r r' hs hr hr' =>
    obtain rfl := Option.some.inj hcoll
    obtain ⟨new, -, rfl⟩ := Router.commitRead_eq_ok.1 hr'
    have hlater : Stage.awaitingWriteCommit ≠ .starting := by decide
    refine (hfit coll rfl).committed hr (by simp [hs]) ?_ (fun _ => ?_) hlater
    · rfl
    · exact Iff.rfl
  | @writeCommitted coll o l r r' hs hr hr' =>
    obtain rfl := Option.some.inj hcoll
    obtain ⟨new, -, rfl⟩ := Router.commitWrite_eq_ok.1 hr'
    have hlater : Stage.awaitingFinish ≠ .starting := by decide
    refine (hfit coll rfl).committed hr (by simp [hs]) ?_ (fun _ => ?_) hlater
    · rfl
    · exact Iff.rfl
  | @finishedUp coll o l r r' hs hr hr' hd =>
    obtain rfl := Option.some.inj hcoll
    exact (hfit coll rfl).finishedUp (ha.follows hr) hr hs hr' hd
  | @finishedDown coll o l r r' hs hr hr' hd =>
    obtain rfl := Option.some.inj hcoll
    exact (hfit coll rfl).finishedDown (ha.follows hr) hr hs hr' hd
  | rolledBack hb => exact Fit.rollsBack ha hfit hb coll' hcoll
  | @replicated coll l t hm hq hs hd hk =>
    obtain rfl := Option.some.inj hcoll
    exact (hfit coll rfl).replicated hm hq hs hd hk
  | @copied coll op l t ht hs hm hd =>
    obtain rfl := Option.some.inj hcoll
    have hf := hfit coll rfl
    obtain rfl := hf.operation_none ha ht hm
    rw [Transfer.eraseP_key hf.keys]
    exact hf.copy_removed ht (s := some .active) (by simp) fun _ _ => rfl
  | @sliced coll op l t transfers next starts ht hs hm hn hw =>
    obtain rfl := Option.some.inj hcoll
    cases op with
    | none =>
      rw [(((hfit coll rfl).idle rfl).2 t ht).whole] at hm
      cases hm
    | some o => exact (hfit coll rfl).sliced ht hs hn
  | @discarded entry coll op l t he ht hm =>
    obtain rfl := Option.some.inj hcoll
    have hf := hfit coll rfl
    obtain rfl := hf.operation_none ha ht hm
    exact hf.copy_removed ht (s := none) (by simp) fun _ _ => rfl
  | @unclaimed coll l t reason ht hm =>
    rw [(((hfit coll rfl).idle rfl).2 t ht).whole] at hm
    cases hm
  | @replicaDropped coll op l q p other hu ho hl =>
    obtain rfl := Option.some.inj hcoll
    exact (hfit coll rfl).unused hu (s := none) (by simp) nofun fun _ _ => rfl
  | @stateSet coll op l q p old state hu hl ho hs =>
    obtain rfl := Option.some.inj hcoll
    exact (hfit coll rfl).unused hu (s := some state) (by simpa using hs) (fun _ => by simp [hl])
      fun _ _ => rfl
  | @evicted coll op l peer force ho hf =>
    obtain rfl := Option.some.inj hcoll
    exact (hfit coll rfl).evicted ho

end Face.Fits

namespace Cluster
variable {c : Cluster}

/-- An operation starts by a plan that is made for the cluster as it is. -/
def Planned (c : Cluster) (entry : Entry) : Prop :=
  ∀ plan, entry = .startResharding plan →
    ∃ name request policy now, c.plan name request policy now = .ok plan

theorem Planned.face {entry : Entry} (h : c.Planned entry) (name : String) :
    (c.face name).Planned name entry := by
  intro plan he hn
  obtain ⟨name', request, policy, now, hp⟩ := h plan he
  obtain ⟨hname, ho, coll, r, hc, -, hr, hf⟩ := plan_fits hp
  obtain rfl : name' = name := hname.symm.trans hn
  exact ⟨ho, coll, r, hc, hr, hf⟩

theorem planned_of_plan {name : String} {request : ReshardingRequest} {policy : RemovalPolicy}
    {now : Timestamp} {plan : Plan} (h : c.plan name request policy now = .ok plan) :
    c.Planned (.startResharding plan) := by
  intro plan' he
  obtain rfl := Entry.startResharding.inj he
  exact ⟨_, _, _, _, h⟩

/-- A log that starts with an operation, by a plan for the cluster as it is. -/
theorem Reached.applyPlan {c' : Cluster} (hc : Reached Planned c) {name : String}
    {request : ReshardingRequest} {policy : RemovalPolicy} {now : Timestamp} {plan : Plan}
    (hp : c.plan name request policy now = .ok plan) {later : List Entry}
    (hl : ∀ entry ∈ later, ∀ c, Planned c entry)
    (h : c.applyAll (.startResharding plan :: later) = .ok c') : Reached Planned c' := by
  simp only [Cluster.applyAll, bind_eq_ok] at h
  obtain ⟨_, happly, hlater⟩ := h
  exact (hc.step (planned_of_plan hp) happly).applyAll hl hlater

theorem Reached.fits (h : Reached Planned c) (name : String) : (c.face name).Fits := by
  refine h.invariant (Q := fun n entry F => F.Planned n entry) ⟨.empty _, nofun⟩
    (fun h hb => h.rollsBack hb) (fun h hp hc => h.change hp hc) (fun {c entry} _ _ ha n => ?_) name
  refine ⟨ha.face n, fun w F' hb plan he hn => ?_⟩
  -- a plan is for a collection without an operation
  obtain ⟨ho, -⟩ := ha.face n plan he hn
  obtain ⟨⟨op, hop⟩, -⟩ := hb.operation
  cases ho.symm.trans hop

/-- The transfers, the replicas and the operations of a cluster belong together. -/
structure Fitted (c : Cluster) : Prop where
  /-- Transfers of an operation are there just while it starts. -/
  slices : ∀ name, (∃ t ∈ c.transfers name, t.resharding = true) ↔ c.stage? name = some .starting
  copies : ∀ name, ∀ t ∈ c.transfers name, t.resharding = false → c.operation? name = none
  ends : ∀ name, ∀ t ∈ c.transfers name,
    c.replicas.state name t.key.shard t.key.source = .ok .active ∧
    c.replicas.state name t.key.toShard t.key.target =
      .ok (if t.resharding then .resharding else .partialCopy)
  single : ∀ name d, ((c.transfers name).filter
    (fun t => t.status == .running && t.key.destination == d)).length ≤ 1
  /-- Replicas are filled only by an operation. -/
  filled : ∀ name q p, c.replicas.state name q p = .ok .resharding →
    ∃ op, c.operation? name = some op
  up : ∀ name op, c.operation? name = some op → op.direction = .up →
    ∀ q p, c.replicas.state name q p = .ok .resharding ↔ q = op.shard ∧ p = op.peer
  down : ∀ name op, c.operation? name = some op → op.direction = .down →
    ∃ r, c.router name op.key = .ok r ∧
      (∀ q ∈ r.shards, q ≠ op.shard → ∃ p, c.replicas.state name q p = .ok .resharding) ∧
      ∀ q p, c.replicas.state name q p = .ok .resharding → q ∈ r.shards ∧ q ≠ op.shard

theorem mem_transfers {name : String} {t : Transfer} (ht : t ∈ c.transfers name) :
    ∃ coll, c.collections.get? name = some coll ∧ t ∈ coll.transfers := by
  unfold transfers at ht
  split at ht
  · rename_i coll hc
    exact ⟨coll, hc, ht⟩
  · cases ht

section
variable (h : ∀ name, (c.face name).Fits) {name : String}
include h

theorem fit_of_live {op : Operation} (ho : c.operation? name = some op) : ∃ coll r,
    c.collections.get? name = some coll ∧ coll.router op.key = .ok r ∧ r.Follows op ∧
      Fit coll (some op) (c.replicas.look name) := by
  obtain ⟨coll, r, hc, hr, hf⟩ := (h name).agrees.live op ho
  have hfit := (h name).fit coll hc
  rw [show (c.face name).operation = some op from ho] at hfit
  exact ⟨coll, r, hc, hr, hf, hfit⟩

theorem fit_of_idle {coll : Collection} (ho : c.operation? name = none)
    (hc : c.collections.get? name = some coll) : Fit coll none (c.replicas.look name) := by
  have hfit := (h name).fit coll hc
  rwa [show (c.face name).operation = none from ho] at hfit

/-- Slices move just in the first stage of an operation. -/
theorem slices_iff_starting :
    (∃ t ∈ c.transfers name, t.resharding = true) ↔ c.stage? name = some .starting := by
  constructor
  · intro hx
    obtain ⟨t, ht, hm⟩ := hx
    obtain ⟨coll, hc, ht⟩ := mem_transfers ht
    cases ho : c.operation? name with
    | none =>
      rw [(((fit_of_idle h ho hc).idle rfl).2 t ht).whole] at hm
      cases hm
    | some op =>
      obtain ⟨coll', r, hc', hr, -, hfit⟩ := fit_of_live h ho
      obtain rfl := Option.some.inj (hc.symm.trans hc')
      rw [stage?, ho, Option.map_some, (hfit.live op r rfl hr).2.2.1 (List.ne_nil_of_mem ht)]
  · intro hs
    obtain ⟨op, ho, hstage⟩ := Option.map_eq_some_iff.1 hs
    obtain ⟨coll, r, hc, hr, -, hfit⟩ := fit_of_live h ho
    obtain ⟨t, ht⟩ := List.exists_mem_of_ne_nil _ ((hfit.live op r rfl hr).2.2.2 hstage)
    exact ⟨t, by rw [transfers_eq hc]; exact ht, hfit.slices hr t ht⟩

/-- A transfer reads an active replica; the one it fills is marked by its kind. -/
theorem ends_of_transfer {t : Transfer} (ht : t ∈ c.transfers name) :
    c.replicas.look name t.key.shard t.key.source = some .active ∧
      c.replicas.look name t.key.toShard t.key.target =
        some (if t.resharding then .resharding else .partialCopy) := by
  obtain ⟨coll, hc, ht⟩ := mem_transfers ht
  cases ho : c.operation? name with
  | none =>
    have hcopy := ((fit_of_idle h ho hc).idle rfl).2 t ht
    exact ⟨hcopy.source, by simpa [hcopy.whole] using hcopy.target⟩
  | some op =>
    obtain ⟨coll', r, hc', hr, -, hfit⟩ := fit_of_live h ho
    obtain rfl := Option.some.inj (hc.symm.trans hc')
    have hfeed := (hfit.live op r rfl hr).2.1 t ht
    exact ⟨hfeed.source, by simpa [hfeed.slice] using hfeed.target⟩

end

theorem fitted_of_faces (h : ∀ name, (c.face name).Fits) (hs : c.Sound) : c.Fitted := by
  have hstate : ∀ {name q p s}, c.replicas.state name q p = .ok s ↔ c.replicas.look name q p = some s :=
    ReplicaTable.state_eq_ok
  refine ⟨fun name => slices_iff_starting h, fun name t ht hm => ?_, fun name t ht => ?_,
    fun name d => ?_, fun name q p hq => ?_, fun name op ho hd q p => ?_, fun name op ho hd => ?_⟩
  · obtain ⟨coll, hc, ht⟩ := mem_transfers ht
    exact ((h name).fit coll hc).operation_none (by rw [← hc]; exact (h name).agrees) ht hm
  · rw [hstate, hstate]
    exact ends_of_transfer h ht
  · unfold transfers
    split
    · rename_i coll hc
      exact ((h name).fit coll hc).paced.length_le_one d
    · simp
  · have hl := hstate.1 hq
    obtain ⟨coll, hc⟩ := hs.collection_of_look hl
    cases ho : c.operation? name with
    | none => exact absurd hl (((fit_of_idle h ho hc).idle rfl).1 q p)
    | some op => exact ⟨op, rfl⟩
  · obtain ⟨coll, r, -, hr, -, hfit⟩ := fit_of_live h ho
    rw [hstate]
    exact (hfit.live op r rfl hr).1.up hd q p
  · obtain ⟨coll, r, hc, hr, hf, hfit⟩ := fit_of_live h ho
    obtain ⟨hall, honly⟩ := (hfit.live op r rfl hr).1.down hd
    simp only [hstate]
    refine ⟨r, router_eq_ok.2 ⟨coll, hc, hr⟩, fun q hq => ?_, fun q p hq => ?_⟩
    · exact hall q ((hf.mem_shards_down hd).1 hq)
    · obtain ⟨hold, hne⟩ := honly q p hq
      exact ⟨(hf.mem_shards_down hd).2 hold, hne⟩

/-- Where operations start by plans, transfers, replicas and operations belong together in every
state. -/
theorem fitted_of_reached (h : Reached Planned c) : c.Fitted :=
  fitted_of_faces h.fits h.sound

/-- Two shards, of which each gives points to a third one: the second waits for the first. -/
def gathering : Except Error Cluster := do
  let c ← replay 1 1 [.addPeer 1, .addPeer 2,
    .createCollection "points" {} (.ofList [(0, [1]), (1, [1, 2])])]
  let plan ← c.plan "points" { direction := .up, peer := some 2 } .last .epoch
  c.applyAll [.startResharding plan]

theorem fitted_gathering : ∃ c, gathering = .ok c ∧ c.stage? "points" = some .starting ∧
    (c.transfers "points").map (·.status) = [.running, .pending] ∧ c.Fitted := by
  have hlive : gathering.toOption.map (fun c =>
      (c.stage? "points", (c.transfers "points").map (·.status))) =
        some (some .starting, [.running, .pending]) := by decide +kernel
  cases h : gathering with
  | error err =>
    rw [h] at hlive
    cases hlive
  | ok c =>
    rw [h] at hlive
    obtain ⟨hstage, hstatus⟩ := Prod.mk.inj (Option.some.inj hlive)
    simp only [gathering, bind_eq_ok] at h
    obtain ⟨c₀, hfound, plan, hplan, hstarted⟩ := h
    have hnew : Reached Planned (.new 1 1) := .new 1 1
    have hplain : Reached Planned c₀ := hnew.applyAll (by simp [Planned]) hfound
    refine ⟨c, rfl, hstage, hstatus, fitted_of_reached ?_⟩
    simp only [applyAll, bind_eq_ok, Except.ok.injEq] at hstarted
    obtain ⟨⟨c₁, e⟩, happly, rfl⟩ := hstarted
    refine hplain.step (fun plan' he => ?_) happly
    obtain rfl := Entry.startResharding.inj he
    exact ⟨_, _, _, _, hplan⟩

end Cluster
end ShardCluster
