import ShardCluster.Proofs.Cluster.Copies
import ShardCluster.Proofs.Node.Requests
import ShardCluster.Proofs.Wire.Entry
/-! What a node can be made anew from. The log gives back the accepted entries, these make the cluster
as it is, and the copies that the cluster asks for are those under way. -/
namespace ShardCluster

/-- One more entry is applied after the others. -/
theorem Cluster.applyAll_snoc {c c' c'' : Cluster} {entries : List Entry} {entry : Entry}
    {e : Effects} (h : c.applyAll entries = .ok c') (happly : c'.apply entry = .ok (c'', e)) :
    c.applyAll (entries ++ [entry]) = .ok c'' := by
  induction entries generalizing c with
  | nil =>
    obtain rfl := Except.ok.inj h
    simp only [List.nil_append, applyAll, happly, bind_eq_ok, Except.ok.injEq]
    exact ⟨_, rfl, rfl⟩
  | cons first rest ih =>
    simp only [List.cons_append, applyAll, bind_eq_ok] at h ⊢
    obtain ⟨⟨c₁, e₁⟩, hfirst, hrest⟩ := h
    exact ⟨_, hfirst, ih hrest⟩

namespace Log
variable {l : Log} {entries : List Entry} {entry : Entry} {bytes : Bytes}

theorem ofEntries_eq_ok : ofEntries entries = .ok l ↔
    entries.mapM Entry.toBytes = .ok l.records ∧ l.outage = 0 := by
  simp only [ofEntries, bind_eq_ok, pure_eq_ok]
  constructor
  · intro h
    obtain ⟨records, hrecords, rfl⟩ := h
    exact ⟨hrecords, rfl⟩
  · intro h
    obtain ⟨hrecords, hout⟩ := h
    exact ⟨_, hrecords, by rw [← hout]⟩

theorem ofEntries_snoc (h : ofEntries entries = .ok l) (hb : entry.toBytes = .ok bytes) :
    ofEntries (entries ++ [entry]) = .ok { l with records := l.records ++ [bytes] } := by
  obtain ⟨hrecords, hout⟩ := ofEntries_eq_ok.1 h
  refine ofEntries_eq_ok.2 ⟨?_, hout⟩
  simp [List.mapM_append, hrecords, hb, bind, Except.bind, pure, Except.pure]

theorem mapM_ofBytes {records : List Bytes} (hs : ∀ e ∈ entries, e.Sized)
    (h : entries.mapM Entry.toBytes = .ok records) : records.mapM Entry.ofBytes = .ok entries := by
  induction entries generalizing records with
  | nil =>
    obtain rfl := Except.ok.inj h
    rfl
  | cons e rest ih =>
    obtain ⟨he, hrest⟩ := List.forall_mem_cons.1 hs
    simp only [List.mapM_cons, bind_eq_ok, pure_eq_ok] at h
    obtain ⟨bytes, hbytes, more, hmore, rfl⟩ := h
    simp only [List.mapM_cons, bind_eq_ok, pure_eq_ok]
    exact ⟨e, Entry.ofBytes_toBytes he hbytes, rest, ih hrest hmore, rfl⟩

/-- The entries that a log is made of are read from it. -/
theorem entries_ofEntries (hs : ∀ e ∈ entries, e.Sized) (h : ofEntries entries = .ok l) :
    l.entries = .ok entries :=
  mapM_ofBytes hs (ofEntries_eq_ok.1 h).1

/-- A log in service records an entry, or refuses one that has no bytes. -/
theorem append_cases (h : l.outage = 0) (e : Entry) : (∃ err, l.append e = (l, .error err)) ∨
    ∃ bytes, e.toBytes = .ok bytes ∧
      l.append e = ({ l with records := l.records ++ [bytes] }, .ok (l.records.length + 1)) := by
  simp only [append, h]
  cases hb : e.toBytes with
  | error err => exact .inl ⟨err, rfl⟩
  | ok bytes => exact .inr ⟨bytes, rfl, rfl⟩

end Log

/-- What comes to a node from outside and may change the cluster. -/
inductive Call where
  | request (now : Timestamp) (r : Request)
  | report (r : Report)

/-- The entry that a call comes to. -/
def Call.decide (config : NodeConfig) (c : Cluster) : Call → Except Error Entry
  | request now r => r.decide config now c
  | report r => .ok r.entry

theorem Call.decide_planned {config : NodeConfig} {c : Cluster} {call : Call} {entry : Entry}
    (h : call.decide config c = .ok entry) : c.Planned entry := by
  cases call with
  | request now r => exact (Request.decide_ok h).1
  | report r =>
    obtain rfl := Except.ok.inj h
    exact fun plan he => absurd he (Report.entry_ne rfl)

namespace Node
variable {config : NodeConfig} {store : FaultyStore} {feed : Feed} {n : Node}
  {past : List (Entry × Effects)}

def answer (n : Node) : Call → Node × Except Error Unit
  | .request now r => n.handle now r
  | .report r => n.hear r

/-- What an accepted call leaves behind: its entry, and the effects of that. -/
def trace (n : Node) (call : Call) : List (Entry × Effects) :=
  match stage n.cluster (fun c => call.decide n.config c), (n.answer call).2 with
  | .ok (entry, _, e), .ok () => [(entry, e)]
  | _, _ => []

/-- The states of a node that starts with an empty log, each with all that was accepted up to then.
In between, clients write and copies take their turns. -/
inductive Logged (config : NodeConfig) (store : FaultyStore) (feed : Feed) :
    Node → List (Entry × Effects) → Prop
  | new : Logged config store feed (.new config store feed) []
  | called {n : Node} {past : List (Entry × Effects)} (h : Logged config store feed n past)
      (call : Call) : Logged config store feed (n.answer call).1 (past ++ n.trace call)
  | aside {n : Node} {past : List (Entry × Effects)} (h : Logged config store feed n past)
      (plane : DataPlane) (feed' : Feed) :
      Logged config store feed { n with plane, feed := feed' } past

theorem answer_commit (n : Node) (call : Call) : ∃ origin, n.answer call =
    n.commit origin (fun c => call.decide n.config c) := by
  cases call with
  | request now r => exact ⟨.request, rfl⟩
  | report r => exact ⟨.report, rfl⟩

/-- A call is refused and changes neither cluster nor log, or its entry is applied and recorded. -/
theorem answer_cases (hlog : n.log.outage = 0) (call : Call) :
    (n.answer call).1.cluster = n.cluster ∧ (n.answer call).1.log = n.log ∧ n.trace call = [] ∨
    ∃ entry e bytes, call.decide n.config n.cluster = .ok entry ∧
      n.cluster.apply entry = .ok ((n.answer call).1.cluster, e) ∧
      entry.toBytes = .ok bytes ∧
      (n.answer call).1.log = { n.log with records := n.log.records ++ [bytes] } ∧
      n.trace call = [(entry, e)] := by
  obtain ⟨origin, horigin⟩ := n.answer_commit call
  rw [trace, horigin]
  obtain ⟨err, hs, hcommit⟩ | ⟨entry, cluster, e, hs, hdecide, happly, happend⟩ :=
    n.commit_eq origin (fun c => call.decide n.config c)
  · rw [hcommit, hs]
    cases origin with
    | request => exact .inl ⟨rfl, rfl, rfl⟩
    | report => exact .inl ⟨rfl, rfl, rfl⟩
  · rw [hs]
    obtain ⟨log, err, hl, hcommit⟩ | ⟨log, index, hl, hcommit⟩ := happend
    · obtain ⟨err', happend⟩ | ⟨bytes, -, happend⟩ := Log.append_cases hlog entry
      · obtain ⟨rfl, -⟩ := Prod.mk.inj (hl.symm.trans happend)
        rw [hcommit]
        exact .inl ⟨rfl, rfl, rfl⟩
      · cases hl.symm.trans happend
    · obtain ⟨err', happend⟩ | ⟨bytes, hbytes, happend⟩ := Log.append_cases hlog entry
      · cases hl.symm.trans happend
      · obtain ⟨rfl, -⟩ := Prod.mk.inj (hl.symm.trans happend)
        rw [hcommit]
        exact .inr ⟨entry, e, bytes, hdecide, happly, hbytes, rfl, rfl⟩

/-- The log, the cluster and the copies are what the accepted entries make. -/
structure Recorded (config : NodeConfig) (n : Node) (past : List (Entry × Effects)) : Prop where
  log : Log.ofEntries (past.map (·.1)) = .ok n.log
  cluster : Cluster.replay config.peer config.ringPositions (past.map (·.1)) = .ok n.cluster
  reached : Cluster.Reached Cluster.Planned n.cluster
  underWay : n.cluster.UnderWay (Effects.outstanding (past.map (·.2)))

theorem Recorded.new : Recorded config (.new config store feed) [] where
  log := rfl
  cluster := rfl
  reached := .new _ _
  underWay _ := ⟨[], rfl, .nil⟩

theorem Recorded.answer (h : n.Recorded config past) (call : Call) :
    (n.answer call).1.Recorded config (past ++ n.trace call) := by
  obtain ⟨-, hlog⟩ := Log.ofEntries_eq_ok.1 h.log
  obtain ⟨hc, hl, htrace⟩ | ⟨entry, e, bytes, hdecide, happly, hbytes, hl, htrace⟩ :=
    n.answer_cases hlog call
  · rw [htrace, List.append_nil]
    exact ⟨hl ▸ h.log, hc ▸ h.cluster, hc ▸ h.reached, hc ▸ h.underWay⟩
  · have hplanned := Call.decide_planned hdecide
    rw [htrace]
    refine ⟨?_, ?_, h.reached.step hplanned happly, ?_⟩
    · rw [hl, List.map_append]
      exact Log.ofEntries_snoc h.log hbytes
    · rw [List.map_append]
      exact Cluster.applyAll_snoc h.cluster happly
    · rw [List.map_append, List.map_singleton, Effects.outstanding_snoc]
      exact h.underWay.step h.reached hplanned happly

theorem Logged.recorded (h : Logged config store feed n past) : n.Recorded config past := by
  induction h with
  | new => exact .new
  | called _ call ih => exact ih.answer call
  | aside _ plane feed' ih => exact ⟨ih.log, ih.cluster, ih.reached, ih.underWay⟩

/-- The log of a node holds what was accepted, a cluster that is replayed from it is the one that the
node has, and the copies that are taken up again are those asked for and not named since. -/
theorem recovered_of_logged (h : Logged config store feed n past) (hs : ∀ x ∈ past, x.1.Sized) :
    n.log.entries = .ok (past.map (·.1)) ∧
    Cluster.replay config.peer config.ringPositions (past.map (·.1)) = .ok n.cluster ∧
    ∃ copies, n.cluster.runningCopies = .ok copies ∧
      copies.Perm (Effects.outstanding (past.map (·.2))) ∧
      ∀ store' feed', ∃ m, recover config n.log store' feed' = .ok m ∧ m.cluster = n.cluster ∧
        m.log = n.log ∧
        m.plane = copies.foldl DataPlane.start { config := config.copying, store := store' } := by
  obtain ⟨hlog, hcluster, -, hunder⟩ := h.recorded
  have hentries : n.log.entries = .ok (past.map (·.1)) := Log.entries_ofEntries (fun e he => by
    obtain ⟨x, hx, rfl⟩ := List.mem_map.1 he
    exact hs x hx) hlog
  obtain ⟨copies, hcopies, hperm⟩ := hunder.runningCopies
  refine ⟨hentries, hcluster, copies, hcopies, hperm, fun store' feed' => ?_⟩
  simp only [recover, hentries, bind_eq_ok, pure_eq_ok]
  exact ⟨_, ⟨_, rfl, _, hcluster, copies, hcopies, rfl⟩, rfl, rfl, rfl⟩

/-- Answer calls one after the other. -/
def answers (n : Node) (past : List (Entry × Effects)) :
    List Call → Node × List (Entry × Effects)
  | [] => (n, past)
  | call :: rest => (n.answer call).1.answers (past ++ n.trace call) rest

theorem Logged.answers (h : Logged config store feed n past) (calls : List Call) :
    Logged config store feed (n.answers past calls).1 (n.answers past calls).2 := by
  induction calls generalizing n past with
  | nil => exact h
  | cons call rest ih => exact ih (h.called call)

/-- A third shard gets its points from two others. The first copy has ended, which lets the second one
start, and a peer is refused that is there. -/
def gaining : List Call :=
  [.request .epoch (.addPeer 1), .request .epoch (.addPeer 2), .request .epoch (.addPeer 2),
    .request .epoch (.createCollection "points" { shardNumber := 2 }),
    .request .epoch (.startResharding "points" { direction := .up, peer := some 1 }),
    .report ⟨"points", ⟨0, 2, 1, 1⟩, 1, none⟩, .report ⟨"points", ⟨0, 2, 1, 1⟩, 1, none⟩]

theorem recovered_gaining : ∃ n past, Logged { ringPositions := 2 } {} {} n past ∧
    (∀ x ∈ past, x.1.Sized) ∧ past.length = 5 ∧ n.log.entries = .ok (past.map (·.1)) ∧
    Cluster.replay 1 2 (past.map (·.1)) = .ok n.cluster ∧
    (Effects.outstanding (past.map (·.2))).map (·.key) = [⟨1, 2, 2, 1⟩] ∧
    ∃ copies, n.cluster.runningCopies = .ok copies ∧
      copies.Perm (Effects.outstanding (past.map (·.2))) := by
  let x := (Node.new { ringPositions := 2 } {} {}).answers [] gaining
  have hlogged : Logged { ringPositions := 2 } {} {} x.1 x.2 := Logged.new.answers gaining
  have hsized : ∀ y ∈ x.2, y.1.Sized := by decide +kernel
  obtain ⟨hentries, hcluster, copies, hcopies, hperm, -⟩ := recovered_of_logged hlogged hsized
  exact ⟨x.1, x.2, hlogged, hsized, by decide +kernel, hentries, hcluster, by decide +kernel, copies,
    hcopies, hperm⟩

end Node
end ShardCluster
