import ShardCluster.Proofs.Cluster.Turnover
import ShardCluster.Proofs.Copy.Counts
import ShardCluster.Proofs.Node.Recovery
/-! The counts of a node against its state. Whatever the node is asked and told, and in whatever order
its copies go on, it counts every operation and every copy once when it starts and once when it ends. -/
namespace ShardCluster
open SortedMap

/-- What ends the operations that a call ends, seen by who makes the call. -/
def Call.ending : Call → Option Ending
  | .request _ (.finishResharding _) => some .finished
  | .request _ (.abortResharding _) => some .asked
  | .request _ (.removePeer ..) | .request _ (.deleteCollection _)
  | .request _ (.deleteShardKey ..) => some .forced
  | .request .. => none
  | .report r => r.failure.map fun _ => .forced

/-- The entry of a call ends operations as the call does. -/
theorem Call.decide_ending {config : NodeConfig} {c : Cluster} {call : Call} {entry : Entry}
    (h : call.decide config c = .ok entry) : entry.ending = call.ending := by
  cases call with
  | report r =>
    obtain rfl := Except.ok.inj h
    cases hf : r.failure with
    | none => simp [Report.entry, Entry.ending, Call.ending, hf]
    | some reason => simp [Report.entry, Entry.ending, Call.ending, hf]
  | request now r =>
    cases r with
    | createCollection name settings =>
      cases hm : settings.method with
      | auto =>
        simp only [Call.decide, Request.decide, hm, bind_eq_ok, pure_eq_ok] at h
        obtain ⟨_, -, rfl⟩ := h
        rfl
      | custom =>
        simp only [Call.decide, Request.decide, hm, bind_eq_ok, pure_eq_ok] at h
        obtain ⟨_, -, rfl⟩ := h
        rfl
    | createShardKey name key =>
      simp only [Call.decide, Request.decide, bind_eq_ok, throw_eq_ok, ite_eq_ok, pure_eq_ok, false_and,
        exists_false, and_false, false_or] at h
      obtain ⟨_, -, _, -, -, _, -, rfl⟩ := h
      rfl
    | startResharding name request =>
      simp only [Call.decide, Request.decide, bind_eq_ok, pure_eq_ok] at h
      obtain ⟨_, -, rfl⟩ := h
      rfl
    | abortResharding name =>
      simp only [Call.decide, Request.decide, bind_eq_ok, pure_eq_ok] at h
      obtain ⟨_, -, _, -, rfl⟩ := h
      rfl
    | _ =>
      obtain rfl := Except.ok.inj h
      rfl

namespace Node
variable {config : NodeConfig} {store : FaultyStore} {feed : Feed} {n : Node} {T : Turnover}

/-- A call is refused, or its entry is carried out on the cluster and on the data plane. -/
theorem answer_executes (n : Node) (call : Call) :
    ((n.answer call).1.cluster = n.cluster ∧ (n.answer call).1.plane.tasks = n.plane.tasks ∧
      (n.answer call).1.plane.metrics.operations = n.plane.metrics.operations ∧
      (n.answer call).1.plane.metrics.copies = n.plane.metrics.copies ∧ n.trace call = []) ∨
    ∃ entry cluster e, call.decide n.config n.cluster = .ok entry ∧
      n.cluster.apply entry = .ok (cluster, e) ∧ n.trace call = [(entry, e)] ∧
      (n.answer call).1.cluster = cluster ∧
      (n.answer call).1.plane = { planeEffects n.plane e with
        metrics := countEffects (planeEffects n.plane e).metrics e } := by
  obtain ⟨origin, horigin⟩ := n.answer_commit call
  rw [trace, horigin]
  obtain ⟨err, hs, hcommit⟩ | ⟨entry, cluster, e, hs, hdecide, happly, hlog⟩ :=
    n.commit_eq origin (fun c => call.decide n.config c)
  · rw [hcommit, hs]
    cases origin with
    | request => exact .inl ⟨rfl, rfl, rfl, rfl, rfl⟩
    | report => exact .inl ⟨rfl, rfl, rfl, rfl, rfl⟩
  · rw [hs]
    obtain ⟨log, err, -, hcommit⟩ | ⟨log, index, -, hcommit⟩ := hlog
    · rw [hcommit]
      exact .inl ⟨rfl, rfl, rfl, rfl, rfl⟩
    · rw [hcommit]
      exact .inr ⟨entry, cluster, e, hdecide, happly, rfl, rfl, rfl⟩

/-- The states of a node that is made new, each with what has become of operations up to then. Calls
are answered, accepted or not, and copies take their turns in any order; the end of a copy may be
heard at any time, or never. Clients write, and the store and the log may fail. -/
inductive Tallied (config : NodeConfig) (store : FaultyStore) (feed : Feed) : Node → Turnover → Prop
  | new : Tallied config store feed (.new config store feed) {}
  | called {n : Node} {T : Turnover} (h : Tallied config store feed n T) (call : Call) :
      Tallied config store feed (n.answer call).1
        (T.after call.ending n.cluster (n.answer call).1.cluster)
  | advanced {n : Node} {T : Turnover} (h : Tallied config store feed n T) {id : TaskId}
      (hs : n.plane.streams id = true) :
      Tallied config store feed { n with plane := (n.plane.advance id).1 } T
  | forgotten {n : Node} {T : Turnover} (h : Tallied config store feed n T) {id : TaskId}
      (hs : n.plane.streams id = false) :
      Tallied config store feed { n with plane := n.plane.forget id } T
  | shutdown {n : Node} {T : Turnover} (h : Tallied config store feed n T) :
      Tallied config store feed n.shutdown T
  | aside {n : Node} {T : Turnover} (h : Tallied config store feed n T) (log : Log)
      (store' : FaultyStore) (feed' : Feed) :
      Tallied config store feed
        { n with log, feed := feed', plane := { n.plane with store := store' } } T

/-- What keeps the counts and the state of a node together. -/
structure Kept (n : Node) (T : Turnover) : Prop where
  reached : Cluster.Reached Cluster.Planned n.cluster
  copies : n.plane.Counted
  live : T.started.Perm (T.ended.map (·.2) ++ n.cluster.operations.keys)
  explained : ∀ x ∈ T.ended, x.1 ≠ none
  operations : n.plane.metrics.operations = ⟨.ofNat T.started.length, .ofNat (T.count .finished),
    .ofNat (T.count .asked + T.count .forced), .ofNat (T.count .forced), n.cluster.operations.size⟩

theorem Kept.new : Kept (.new config store feed) {} where
  reached := .new _ _
  copies := ⟨List.nodup_nil, rfl, rfl⟩
  live := .nil
  explained := nofun
  operations := rfl

theorem Kept.plane (h : n.Kept T) {n' : Node} (hc : n'.cluster = n.cluster) (hp : n'.plane.Counted)
    (ho : n'.plane.metrics.operations = n.plane.metrics.operations) : n'.Kept T :=
  ⟨hc ▸ h.reached, hp, hc ▸ h.live, h.explained, by rw [ho, hc, h.operations]⟩

theorem Kept.answer (h : n.Kept T) (call : Call) :
    (n.answer call).1.Kept (T.after call.ending n.cluster (n.answer call).1.cluster) := by
  obtain ⟨hc, ht, ho, hm, -⟩ | ⟨entry, cluster, e, hdecide, happly, -, hc, hp⟩ := n.answer_executes call
  · rw [Turnover.after_same (congrArg Cluster.operations hc)]
    exact h.plane hc (h.copies.congr ht hm) ho
  · have ha := Cluster.apply_accounted h.reached.sound happly
    rw [Call.decide_ending hdecide] at ha
    have hsize := ha.size
    have hbefore : (planeEffects n.plane e).metrics.operations = _ :=
      (operations_planeEffects n.plane e).trans h.operations
    have hroom : e.finished.length + e.aborted.length ≤
        (planeEffects n.plane e).metrics.operations.active + e.started.length := by
      rw [hbefore]
      simp only
      omega
    rw [hc]
    refine ⟨hc ▸ h.reached.step (Call.decide_planned hdecide) happly, ?_, ?_, ?_, ?_⟩
    · rw [hp]
      exact (counted_planeEffects h.copies e).congr rfl (copies_countEffects _ e)
    · rw [hc]
      exact Turnover.live_after ha h.live
    · intro x hx
      obtain hx | hx := List.mem_append.1 ((Turnover.ended_after ha).mem_iff.1 hx)
      · exact h.explained x hx
      · obtain ⟨y, -, rfl⟩ := List.mem_map.1 hx
        exact nofun
    · have hcounts : (n.answer call).1.plane.metrics.operations =
          (countEffects (planeEffects n.plane e).metrics e).operations := by rw [hp]
      have hended : ∀ x, (T.after call.ending n.cluster cluster).count x =
          T.count x + e.endings.countP (·.1 == x) := Turnover.count_after ha
      have haborted : (T.after call.ending n.cluster cluster).count .asked +
          (T.after call.ending n.cluster cluster).count .forced =
            T.count .asked + T.count .forced + e.aborted.length := by
        rw [hended, hended, ← e.countP_aborted]
        omega
      have hlive : (n.cluster.operations.size : Int) + e.started.length - e.finished.length -
          e.aborted.length = cluster.operations.size := by omega
      rw [hcounts, operations_countEffects _ e hroom, hbefore, hc, haborted, hended, hended,
        e.countP_finished, e.countP_forced, Turnover.started_after ha, hlive]
      simp only [UInt64.ofNat_add]

theorem Tallied.kept (h : Tallied config store feed n T) : n.Kept T := by
  induction h with
  | new => exact .new
  | called _ call ih => exact ih.answer call
  | @advanced n T _ id hs ih =>
    obtain ⟨t, ht, hstreams⟩ := (Option.any_eq_true _ _).1 hs
    exact ih.plane rfl (ih.copies.advance ht hstreams) (n.plane.operations_advance id)
  | @forgotten n T _ id hs ih =>
    refine ih.plane rfl ?_ rfl
    cases ht : n.plane.task? id with
    | none => exact ih.copies.congr (DataPlane.forget_tasks_of_none ht) rfl
    | some t =>
      refine ih.copies.forget ht ?_
      simpa [DataPlane.streams, ht] using hs
  | @shutdown n T _ ih => exact ih.plane rfl ih.copies.cancelAll n.plane.operations_cancelAll
  | aside _ log store' feed' ih => exact ih.plane rfl (ih.copies.congr rfl rfl) rfl

/-- The copy that reports is not cancelled for that. -/
theorem report_spares {r : Report} {c c' : Cluster} {e : Effects}
    (h : c.apply r.entry = .ok (c', e)) : (r.collection, r.key) ∉ e.cancel := by
  obtain he | ⟨reason, he⟩ := r.entry_cases
  · rw [he] at h
    simp only [Cluster.apply, Cluster.finishTransfer, bind_eq_ok, throw_eq_ok, ite_eq_ok, false_and,
      exists_false, and_false, false_or, pure_eq_ok, Prod.mk.injEq] at h
    obtain ⟨coll, -, t, -, _, -, -, ⟨-, ⟨c₁, e₁⟩, hslice, -, rfl⟩ | ⟨-, _, -, -, rfl⟩⟩ := h
    · obtain ⟨starts, rfl, -⟩ := Cluster.finishSlice_redone hslice
      exact List.not_mem_nil
    · exact List.not_mem_nil
  · rw [he] at h
    simp only [Cluster.apply, Cluster.failTransfer, bind_eq_ok, ite_eq_ok, pure_eq_ok, Prod.mk.injEq] at h
    obtain ⟨coll, -, t, -, -, -, ⟨-, ⟨c₁, e₁⟩, -, -, rfl⟩ | ⟨-, ⟨c₁, e₁⟩, hdiscard, -, rfl⟩⟩ := h
    · intro hin
      obtain hin | hin := List.mem_append.1 hin
      · simpa using (List.mem_filter.1 hin).2
      · exact List.not_mem_nil hin
    · obtain ⟨rfl, -⟩ := Cluster.discardTransfer_redone hdiscard
      exact List.not_mem_nil

/-- What has become of operations once a copy has had its turn and, if it has ended, was heard. -/
def turned (n : Node) (T : Turnover) (id : TaskId) : Turnover :=
  match (n.plane.advance id).2 with
  | none => T
  | some r => T.after (Call.report r).ending n.cluster (n.turn id).cluster

/-- A whole turn is one of the ways in which a node goes on. -/
theorem Tallied.turn (h : Tallied config store feed n T) {id : TaskId}
    (hs : n.plane.streams id = true) : Tallied config store feed (n.turn id) (n.turned T id) := by
  have hadvanced := h.advanced hs
  cases ha : n.plane.advance id with
  | mk plane report =>
    rw [ha] at hadvanced
    cases report with
    | none =>
      rw [Node.turn, turned, ha]
      exact hadvanced
    | some r =>
      obtain ⟨t, ht, hin, hreport⟩ := DataPlane.advance_reports ha
      obtain ⟨hended, hid⟩ := Report.of_task hreport
      rw [(Task.turn_same _ _).1, (DataPlane.task?_eq_some ht).2] at hid
      have hheard := hadvanced.called (.report r)
      have hstays : (t.turn n.plane.store).1 ∈
          (Node.answer { n with plane } (.report r)).1.plane.tasks := by
        obtain ⟨-, htasks, -⟩ | ⟨entry, cluster, e, hdecide, happly, -, -, hp⟩ :=
          answer_executes { n with plane } (.report r)
        · rwa [htasks]
        · obtain rfl := Except.ok.inj hdecide
          rw [hp]
          refine mem_planeEffects hin ?_
          rw [(Task.turn_same _ _).1, (DataPlane.task?_eq_some ht).2, ← hid]
          exact report_spares happly
      have hover := DataPlane.streams_of_ended hheard.kept.copies.distinct hstays hended
      rw [(Task.turn_same _ _).1, (DataPlane.task?_eq_some ht).2] at hover
      rw [turned, Node.turn, ha]
      exact hheard.forgotten hover

/-- The counts say how many operations are live and how many copies are under way, what has become of
the others, and never more than there is. -/
structure Balanced (n : Node) (T : Turnover) : Prop where
  /-- Every operation that has started has ended, once, or is live. -/
  live : T.started.Perm (T.ended.map (·.2) ++ n.cluster.operations.keys)
  /-- None ends but by being finished or given up. -/
  explained : ∀ x ∈ T.ended, x.1 ≠ none
  started : n.plane.metrics.operationsStarted = .ofNat T.started.length
  finished : n.plane.metrics.operationsFinished = .ofNat (T.count .finished)
  aborted : n.plane.metrics.operationsAborted = .ofNat (T.count .asked + T.count .forced)
  forced : n.plane.metrics.operationsForceAborted = .ofNat (T.count .forced)
  active : n.plane.metrics.activeOperations = n.cluster.operations.size
  operations : n.plane.metrics.operationsStarted = n.plane.metrics.operationsFinished +
    n.plane.metrics.operationsAborted + .ofInt n.plane.metrics.activeOperations
  /-- As long as the counter of all aborts has not begun again from zero. -/
  forcedLe : T.count .asked + T.count .forced < UInt64.size →
    n.plane.metrics.operationsForceAborted ≤ n.plane.metrics.operationsAborted
  streaming : n.plane.metrics.activeTransfers = n.plane.tasks.countP Task.streams
  transfers : n.plane.metrics.transfersStarted = n.plane.metrics.transfersFinished +
    n.plane.metrics.transfersFailed + n.plane.metrics.transfersCancelled +
      .ofInt n.plane.metrics.activeTransfers
  /-- Whatever is committed next, the decrements that come with it find the gauge above zero. -/
  bears : ∀ call entry e, n.trace call = [(entry, e)] →
    (Gauge.raise^[e.started.length] n.plane.metrics.activeOperations).Bears
      (e.finished.length + e.aborted.length)
  /-- So do those that come with the ends of the copies under way. -/
  bearsEnds : n.plane.metrics.activeTransfers.Bears (n.plane.tasks.countP Task.streams)

theorem Kept.balanced (h : n.Kept T) : n.Balanced T := by
  have hactive : n.plane.metrics.activeOperations = n.cluster.operations.size :=
    congrArg OperationCounts.active h.operations
  have hstarted : n.plane.metrics.operationsStarted = .ofNat T.started.length :=
    congrArg OperationCounts.started h.operations
  have hfinished : n.plane.metrics.operationsFinished = .ofNat (T.count .finished) :=
    congrArg OperationCounts.finished h.operations
  have haborted : n.plane.metrics.operationsAborted = .ofNat (T.count .asked + T.count .forced) :=
    congrArg OperationCounts.aborted h.operations
  have hforced : n.plane.metrics.operationsForceAborted = .ofNat (T.count .forced) :=
    congrArg OperationCounts.forced h.operations
  have hstreaming : n.plane.metrics.activeTransfers = n.plane.streaming := h.copies.balances.active
  have hended := T.length_ended h.explained
  have hlive := h.live.length_eq
  rw [List.length_append, List.length_map, SortedMap.keys, List.length_map] at hlive
  refine ⟨h.live, h.explained, hstarted, hfinished, haborted, hforced, hactive, ?_, fun hsmall => ?_,
    hstreaming, ?_, fun call entry e ht => ?_, ?_⟩
  · rw [hstarted, hfinished, haborted, hactive, Counter.ofInt_natCast, ← UInt64.ofNat_add,
      ← UInt64.ofNat_add, hended, hlive]
    rfl
  · rw [hforced, haborted]
    exact (UInt64.ofNat_le_iff_le (by omega) hsmall).2 (Nat.le_add_left _ _)
  · rw [hstreaming, Counter.ofInt_natCast]
    exact h.copies.balances.total
  · obtain ⟨-, -, -, -, hnone⟩ | ⟨entry', cluster, e', -, happly, hsome, -⟩ := n.answer_executes call
    · rw [hnone] at ht
      cases ht
    · rw [hsome] at ht
      obtain ⟨rfl, rfl⟩ := Prod.mk.inj (List.cons.inj ht).1
      have hsize := (Cluster.apply_accounted h.reached.sound happly).size
      rw [Gauge.iterate_raise, hactive]
      exact Gauge.bears_of_le (by omega)
  · rw [hstreaming]
    exact Gauge.bears_of_le (Int.le_refl _)

/-- The counts balance with the state. -/
theorem balanced_of_tallied (h : Tallied config store feed n T) : n.Balanced T := h.kept.balanced

/-- Answer calls one after the other, and keep account of what becomes of operations. -/
def tallies (n : Node) (T : Turnover) : List Call → Node × Turnover
  | [] => (n, T)
  | call :: rest =>
    (n.answer call).1.tallies (T.after call.ending n.cluster (n.answer call).1.cluster) rest

theorem Tallied.tallies (h : Tallied config store feed n T) (calls : List Call) :
    Tallied config store feed (n.tallies T calls).1 (n.tallies T calls).2 := by
  induction calls generalizing n T with
  | nil => exact h
  | cons call rest ih => exact ih (h.called call)

/-- An operation whose two copies have ended is finished. The next one is given up on request, another
one loses its collection, and the last one goes on. -/
def relenting : List Call :=
  [.request .epoch (.commitRead "points"), .request .epoch (.commitWrite "points"),
    .request .epoch (.finishResharding "points"), .request .epoch (.abortResharding "points"),
    .request .epoch (.startResharding "points" { direction := .up, peer := some 2 }),
    .request .epoch (.abortResharding "points"),
    .request .epoch (.startResharding "points" { direction := .up, peer := some 2 }),
    .request .epoch (.deleteCollection "points"),
    .request .epoch (.createCollection "points" { shardNumber := 2 }),
    .request .epoch (.startResharding "points" { direction := .up, peer := some 1 })]

theorem balanced_relenting : ∃ n T, Tallied { ringPositions := 2 } {} {} n T ∧ n.Balanced T ∧
    T.started = ["points", "points", "points", "points"] ∧
    T.ended = [(some .finished, "points"), (some .asked, "points"), (some .forced, "points")] ∧
    n.plane.metrics.operations = ⟨4, 1, 2, 1, 1⟩ ∧ n.plane.metrics.copies = ⟨5, 2, 0, 2, 1⟩ := by
  let x := (Node.new { ringPositions := 2 } {} {}).tallies {} (gaining.take 5)
  have hx : Tallied { ringPositions := 2 } {} {} x.1 x.2 := Tallied.new.tallies (gaining.take 5)
  have hfirst : Tallied _ _ _ (x.1.turn ("points", ⟨0, 2, 1, 1⟩)) _ := hx.turn (by decide +kernel)
  have hsecond : Tallied _ _ _ ((x.1.turn ("points", ⟨0, 2, 1, 1⟩)).turn ("points", ⟨1, 2, 2, 1⟩)) _ :=
    hfirst.turn (by decide +kernel)
  have hlast := hsecond.tallies relenting
  exact ⟨_, _, hlast, balanced_of_tallied hlast, by decide +kernel, by decide +kernel,
    by decide +kernel, by decide +kernel⟩

end Node
end ShardCluster
