import ShardCluster.Proofs.Node.Commits
/-! Requests and the reports of copies: each comes to one entry, or is refused. -/
namespace ShardCluster

/-- A request comes to an entry of its own kind, and an operation starts by a plan. -/
theorem Request.decide_ok {r : Request} {config : NodeConfig} {now : Timestamp} {c : Cluster}
    {entry : Entry} (h : r.decide config now c = .ok entry) : c.Planned entry ∧
      entry.reported = none ∧
      (∀ name q p s, entry = .setReplicaState name q p s → r = .setReplicaState name q p s) ∧
      ∀ peer force, entry = .removePeer peer force → r = .removePeer peer force := by
  have hplain : ∀ {entry : Entry}, (∀ plan, entry ≠ .startResharding plan) → c.Planned entry :=
    fun hne plan he => absurd he (hne plan)
  cases r with
  | createCollection name settings =>
    cases hm : settings.method with
    | auto =>
      simp only [decide, hm, bind_eq_ok, pure_eq_ok] at h
      obtain ⟨_, -, rfl⟩ := h
      exact ⟨hplain (fun _ he => by cases he), rfl, nofun, nofun⟩
    | custom =>
      simp only [decide, hm, bind_eq_ok, pure_eq_ok] at h
      obtain ⟨_, -, rfl⟩ := h
      exact ⟨hplain (fun _ he => by cases he), rfl, nofun, nofun⟩
  | createShardKey name key =>
    simp only [decide, bind_eq_ok, throw_eq_ok, ite_eq_ok, pure_eq_ok, false_and, exists_false, and_false,
      false_or] at h
    obtain ⟨_, -, _, -, -, _, -, rfl⟩ := h
    exact ⟨hplain (fun _ he => by cases he), rfl, nofun, nofun⟩
  | startResharding name request =>
    simp only [decide, bind_eq_ok, pure_eq_ok] at h
    obtain ⟨plan, hplan, rfl⟩ := h
    refine ⟨fun plan' he => ?_, rfl, nofun, nofun⟩
    obtain rfl := Entry.startResharding.inj he
    exact ⟨_, _, _, _, hplan⟩
  | abortResharding name =>
    simp only [decide, bind_eq_ok, pure_eq_ok] at h
    obtain ⟨_, -, _, -, rfl⟩ := h
    exact ⟨hplain (fun _ he => by cases he), rfl, nofun, nofun⟩
  | setReplicaState name q p s =>
    obtain rfl := Except.ok.inj h
    refine ⟨hplain (fun _ he => by cases he), rfl, fun _ _ _ _ he => ?_, nofun⟩
    cases he
    rfl
  | removePeer peer force =>
    obtain rfl := Except.ok.inj h
    refine ⟨hplain (fun _ he => by cases he), rfl, nofun, fun _ _ he => ?_⟩
    cases he
    rfl
  | _ =>
    obtain rfl := Except.ok.inj h
    exact ⟨hplain (fun _ he => by cases he), rfl, nofun, nofun⟩

/-- No state of a replica is set by hand. -/
def Request.LeavesStates (r : Request) : Prop := ∀ name q p s, r ≠ .setReplicaState name q p s

namespace Report

/-- The entry that a report comes to. -/
def entry (r : Report) : Entry :=
  match r.failure with
  | none => .finishTransfer r.collection r.key r.epoch
  | some reason => .failTransfer r.collection r.key r.epoch reason

theorem entry_cases (r : Report) : r.entry = .finishTransfer r.collection r.key r.epoch ∨
    ∃ reason, r.entry = .failTransfer r.collection r.key r.epoch reason := by
  unfold entry
  cases r.failure with
  | none => exact .inl rfl
  | some reason => exact .inr ⟨reason, rfl⟩

theorem entry_reported (r : Report) : r.entry.reported = some (r.collection, r.key) := by
  obtain he | ⟨reason, he⟩ := r.entry_cases <;> rw [he] <;> rfl

/-- A report starts no operation, sets no state and removes no peer. -/
theorem entry_ne {r : Report} {entry : Entry} (h : entry.reported = none) : r.entry ≠ entry := by
  intro he
  have hr := r.entry_reported
  rw [he, h] at hr
  cases hr

theorem entry_gentle (r : Report) (F : Face) (name : String) : F.Gentle name r.entry where
  planned _ he := absurd he (entry_ne rfl)
  states _ _ _ := entry_ne rfl
  spares _ he := absurd he (entry_ne rfl)

/-- A report is of the copy that ends. -/
theorem of_task {T : Task} {r : Report} (h : DataPlane.reportOf T = some r) :
    T.outcome?.isSome ∧ (r.collection, r.key) = T.request.id := by
  cases ho : T.outcome? with
  | none => simp [DataPlane.reportOf, ho] at h
  | some o =>
    cases o with
    | finished =>
      simp only [DataPlane.reportOf, ho, Option.some.injEq] at h
      exact h ▸ ⟨rfl, rfl⟩
    | failed why =>
      simp only [DataPlane.reportOf, ho, Option.some.injEq] at h
      exact h ▸ ⟨rfl, rfl⟩

/-- Only a transfer in the table can be reported on, under its own epoch. -/
theorem transfer {r : Report} {c c' : Cluster} {e : Effects} (h : c.apply r.entry = .ok (c', e)) :
    ∃ t ∈ c.transfers r.collection, t.key = r.key ∧ t.epoch = r.epoch := by
  obtain ⟨coll, t, hcoll, hfind, hepoch⟩ : ∃ coll t, c.collections.get? r.collection = some coll ∧
      coll.find r.key = .ok t ∧ t.epoch = r.epoch := by
    obtain he | ⟨reason, he⟩ := r.entry_cases
    · simp only [he, Cluster.apply, Cluster.finishTransfer, bind_eq_ok, Cluster.collection_eq_ok,
        Cluster.checkEpoch_eq_ok] at h
      obtain ⟨coll, hcoll, t, hfind, -, hepoch, -⟩ := h
      exact ⟨coll, t, hcoll, hfind, hepoch⟩
    · simp only [he, Cluster.apply, Cluster.failTransfer, bind_eq_ok, Cluster.collection_eq_ok,
        Cluster.checkEpoch_eq_ok] at h
      obtain ⟨coll, hcoll, t, hfind, -, hepoch, -⟩ := h
      exact ⟨coll, t, hcoll, hfind, hepoch⟩
  obtain ⟨ht, hkey⟩ := Collection.find_eq_ok hfind
  exact ⟨t, by rw [Cluster.transfers_eq hcoll]; exact ht, hkey, hepoch⟩

end Report

namespace Node
variable {n n' : Node} {L : Ledger}

/-- A commit is refused, finds the log out of order, or carries out its entry. -/
theorem commit_eq (n : Node) (origin : Origin) (decide : Cluster → Except Error Entry) :
    (∃ err, stage n.cluster decide = .error err ∧
      n.commit origin decide = (n.refuse origin, .error err)) ∨
    ∃ entry cluster e, stage n.cluster decide = .ok (entry, cluster, e) ∧
      decide n.cluster = .ok entry ∧ n.cluster.apply entry = .ok (cluster, e) ∧
      ((∃ log err, n.log.append entry = (log, .error err) ∧
          n.commit origin decide = ({ n with log }, .error err)) ∨
        ∃ log index, n.log.append entry = (log, .ok index) ∧
          n.commit origin decide = (({ n with log, cluster } : Node).execute e, .ok ())) := by
  cases hs : stage n.cluster decide with
  | error err => exact .inl ⟨err, rfl, by simp only [commit, hs]⟩
  | ok staged =>
    obtain ⟨entry, cluster, e⟩ := staged
    have hstage := hs
    simp only [stage, bind_eq_ok, pure_eq_ok, Prod.mk.injEq] at hstage
    obtain ⟨entry, hdecide, ⟨cluster, e⟩, happly, rfl, rfl, rfl⟩ := hstage
    refine .inr ⟨entry, cluster, e, rfl, hdecide, happly, ?_⟩
    cases hl : n.log.append entry with
    | mk log result =>
      cases result with
      | error err => exact .inl ⟨log, err, rfl, by simp only [commit, hs, hl]⟩
      | ok index => exact .inr ⟨log, index, rfl, by simp only [commit, hs, hl]⟩

/-- A commit carries out one entry, or leaves cluster, store and copies as they are. -/
theorem commit_cases (n : Node) (origin : Origin) (decide : Cluster → Except Error Entry) :
    ((n.commit origin decide).1.cluster = n.cluster ∧
      (n.commit origin decide).1.plane.store = n.plane.store ∧
      (n.commit origin decide).1.plane.tasks = n.plane.tasks) ∨
    ∃ entry e, decide n.cluster = .ok entry ∧
      n.cluster.apply entry = .ok ((n.commit origin decide).1.cluster, e) ∧
      (n.commit origin decide).1.plane.store = (planeEffects n.plane e).store ∧
      (n.commit origin decide).1.plane.tasks = (planeEffects n.plane e).tasks ∧
      (n.commit origin decide).2 = .ok () := by
  obtain ⟨err, -, hcommit⟩ | ⟨entry, cluster, e, -, hdecide, happly, hlog⟩ := n.commit_eq origin decide
  · rw [hcommit]
    cases origin with
    | request => exact .inl ⟨rfl, rfl, rfl⟩
    | report => exact .inl ⟨rfl, rfl, rfl⟩
  · obtain ⟨log, err, -, hcommit⟩ | ⟨log, index, -, hcommit⟩ := hlog
    · rw [hcommit]
      exact .inl ⟨rfl, rfl, rfl⟩
    · rw [hcommit]
      exact .inr ⟨entry, e, hdecide, happly, rfl, rfl, rfl⟩

/-- Whatever becomes of a commit, the settings of the copies stay. -/
theorem uniform_commit {c : CopyConfig} (h : n.plane.Uniform c) (origin : Origin)
    (decide : Cluster → Except Error Entry) : (n.commit origin decide).1.plane.Uniform c := by
  obtain ⟨err, -, hcommit⟩ | ⟨entry, cluster, e, -, -, -, hlog⟩ := n.commit_eq origin decide
  · rw [hcommit]
    cases origin with
    | request => exact h.congr rfl rfl
    | report => exact h.congr rfl rfl
  · obtain ⟨log, err, -, hcommit⟩ | ⟨log, index, -, hcommit⟩ := hlog
    · rw [hcommit]
      exact h
    · rw [hcommit]
      exact (uniform_planeEffects h e).congr rfl rfl

/-- What the operator keeps to: no state of a replica is set by hand, and no peer is removed by
force that has the last readable replica of a shard. -/
structure Admits (n : Node) (now : Timestamp) (r : Request) : Prop where
  states : r.LeavesStates
  spares : (n.handle now r).2 = .ok () → ∀ peer, r = .removePeer peer true →
    ∀ name, (n.cluster.face name).Spares peer

/-- A commit leaves every shard a readable replica, if its entry does. -/
theorem Holds.served_commit (h : n.Holds L) {origin : Origin}
    {decide : Cluster → Except Error Entry}
    (hg : ∀ entry, decide n.cluster = .ok entry → (n.commit origin decide).2 = .ok () →
      ∀ name, (n.cluster.face name).Gentle name entry) (name : String) :
    ((n.commit origin decide).1.cluster.face name).Served := by
  obtain ⟨hc, -⟩ | ⟨entry, e, hdecide, happly, -, -, hok⟩ := n.commit_cases origin decide
  · exact hc ▸ h.served name
  · have hstep := Cluster.apply_step h.reached.sound happly
    exact (h.served name).changes (h.tended name) (h.reached.fits name) (hg entry hdecide hok name)
      (hstep.changes name)

theorem Holds.served_handle (h : n.Holds L) {now : Timestamp} {r : Request} (hr : n.Admits now r)
    (name : String) : ((n.handle now r).1.cluster.face name).Served := by
  refine h.served_commit (fun entry hdecide hok name => ?_) name
  obtain ⟨hplan, -, hstates, hpeers⟩ := Request.decide_ok hdecide
  exact ⟨⟨hplan.face name, fun q p s he => hr.states name q p s (hstates name q p s he)⟩,
    fun peer he => hr.spares hok peer (hpeers peer true he) name⟩

theorem Holds.served_hear (h : n.Holds L) (r : Report) (name : String) :
    ((n.hear r).1.cluster.face name).Served := by
  refine h.served_commit (fun entry hdecide _ name => ?_) name
  obtain rfl := Except.ok.inj hdecide
  exact r.entry_gentle _ name

theorem Stocked.handle (h : n.Stocked L) {now : Timestamp} {r : Request}
    (hr : r.LeavesStates) (ha : ∀ name, ((n.handle now r).1.cluster.face name).Apart) :
    (n.handle now r).1.Stocked (L.within (n.handle now r).1.cluster) := by
  obtain ⟨hc, hs, ht⟩ | ⟨entry, e, hdecide, happly, hs, ht, -⟩ :=
    n.commit_cases .request (fun c => r.decide n.config now c)
  · refine h.refused hc hs ?_ fun T hT => ?_
    · exact h.distinct.congr ht
    · have hT : T ∈ (n.commit .request (fun c => r.decide n.config now c)).1.plane.tasks := hT
      rwa [ht] at hT
  · obtain ⟨hplan, hreported, hstates, -⟩ := Request.decide_ok hdecide
    have hx := planeEffects_executed h.faultless h.distinct e
    refine h.applied happly hplan (fun name => ⟨hplan.face name, ?_⟩) (fun name t _ he => ?_) hx hs
      ?_ (fun T hT => ⟨?_, ?_⟩) ha
    · exact fun q p s he => hr name q p s (hstates name q p s he)
    · rw [he] at hreported
      cases hreported
    · exact hx.distinct.congr ht
    · have hT : T ∈ (n.commit .request (fun c => r.decide n.config now c)).1.plane.tasks := hT
      rwa [ht] at hT
    · simp [hreported]

/-- Hear the report of a copy that has ended, and forget the copy. -/
def settle (n : Node) (T : Task) (r : Report) : Node :=
  { (n.hear r).1 with plane := (n.hear r).1.plane.forget T.request.id }

theorem Stocked.settle (h : n.Stocked L) {T : Task} {r : Report} (hT : T ∈ n.plane.tasks)
    (hr : DataPlane.reportOf T = some r)
    (ha : ∀ name, ((n.settle T r).cluster.face name).Apart) :
    (n.settle T r).Stocked (L.within (n.settle T r).cluster) := by
  obtain ⟨hended, hid⟩ := Report.of_task hr
  have hreported := hid ▸ r.entry_reported
  obtain ⟨hc, hs, ht⟩ | ⟨_, e, hdecide, happly, hs, ht, -⟩ :=
    n.commit_cases .report (fun _ => .ok r.entry)
  · refine h.refused hc hs ((h.distinct.congr ht).forget _) fun T' hT' => ?_
    have hin : T' ∈ (n.commit .report (fun _ => .ok r.entry)).1.plane.tasks :=
      (DataPlane.mem_forget.1 hT').1
    rwa [ht] at hin
  · obtain rfl := Except.ok.inj hdecide
    have hx := planeEffects_executed h.faultless h.distinct e
    refine h.applied happly (fun plan he => absurd he (Report.entry_ne rfl))
      (fun name => (r.entry_gentle _ name).toOrderly) (fun name t _ he id => ?_) hx hs
      ((hx.distinct.congr ht).forget _) (fun T' hT' => ?_) ha
    · -- the copy has ended, so it is past every point
      rw [he] at hreported
      obtain ⟨hk, hname⟩ : t.key = T.request.key ∧ name = T.request.collection :=
        (Prod.mk.inj (Option.some.inj hreported)).symm
      exact ⟨T, ⟨hT, hname.symm⟩, hk.symm, Task.not_ahead_of_ended hended⟩
    · obtain ⟨hin, hne⟩ := DataPlane.mem_forget.1 hT'
      have hin : T' ∈ (n.commit .report (fun _ => .ok r.entry)).1.plane.tasks := hin
      rw [ht] at hin
      exact ⟨hin, fun x hx he => hne (he.trans (Option.some.inj (hx.symm.trans hreported)))⟩

/-- A report that comes too late is refused. -/
theorem Stocked.late (h : n.Stocked L) {r : Report}
    (hr : ∀ t ∈ n.cluster.transfers r.collection, t.key = r.key → t.epoch ≠ r.epoch) :
    (n.hear r).1.Stocked (L.within (n.hear r).1.cluster) := by
  obtain ⟨hc, hs, ht⟩ | ⟨_, e, hdecide, happly, -⟩ :=
    n.commit_cases .report (fun _ => .ok r.entry)
  · refine h.refused hc hs (h.distinct.congr ht) fun T hT => ?_
    have hT : T ∈ (n.commit .report (fun _ => .ok r.entry)).1.plane.tasks := hT
    rwa [ht] at hT
  · obtain rfl := Except.ok.inj hdecide
    obtain ⟨t, ht, hkey, hepoch⟩ := Report.transfer happly
    exact absurd hepoch (hr t ht hkey)

end Node
end ShardCluster
