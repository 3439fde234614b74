import ShardCluster.Proofs.Cluster.References
import ShardCluster.Proofs.Cluster.Reports
/-! Effects name no collection but the one that the entry is about. -/
namespace ShardCluster

def Cleanup.location : Cleanup → Location
  | drop location | delete location _ => location

/-- Effects that name one collection alone. -/
structure Effects.Within (e : Effects) (name : String) : Prop where
  cancel : ∀ x ∈ e.cancel, x.1 = name
  cleanup : ∀ x ∈ e.cleanup, x.location.collection = name
  spawn : ∀ x ∈ e.spawn, x.collection = name
  events : ∀ x ∈ e.events, x.collection? = some name
  started : ∀ x ∈ e.started, x.collection = name
  finished : ∀ x ∈ e.finished, x.collection = name
  aborted : ∀ x ∈ e.aborted, x.operation.collection = name
  completed : ∀ x ∈ e.completed, x.1 = name

namespace Effects.Within
variable {e e' : Effects} {name : String}

theorem empty : ({} : Effects).Within name := by constructor <;> simp

theorem append (h : e.Within name) (h' : e'.Within name) : (e ++ e').Within name := by
  have hboth : ∀ {α : Type} {P : α → Prop} {l l' : List α}, (∀ x ∈ l, P x) → (∀ x ∈ l', P x) →
      ∀ x ∈ l ++ l', P x := fun h h' x hx => (List.mem_append.1 hx).elim (h x) (h' x)
  exact ⟨hboth h.cancel h'.cancel, hboth h.cleanup h'.cleanup, hboth h.spawn h'.spawn,
    hboth h.events h'.events, hboth h.started h'.started, hboth h.finished h'.finished,
    hboth h.aborted h'.aborted, hboth h.completed h'.completed⟩

theorem cancelling (l : List Transfer) : (Effects.cancelling name l).Within name :=
  { empty with cancel := by simp [Effects.cancelling] }

theorem dropping (l : List Replica) : (Effects.dropping name l).Within name :=
  { empty with cleanup := by simp [Effects.dropping, Cleanup.location, Replica.location] }

theorem deleting (slice : Slice) (l : List Replica) : (Effects.deleting name slice l).Within name :=
  { empty with cleanup := by simp [Effects.deleting, Cleanup.location, Replica.location] }

theorem reporting (t : Transfer) : ({ completed := [(name, t)] } : Effects).Within name :=
  { empty with completed := by simp }

theorem announcing {event : TopologyEvent} (h : event.collection? = some name) :
    ({ events := [event] } : Effects).Within name :=
  { empty with events := by simp [h] }

end Effects.Within

/-- A computation whose effects, where it has any, name one collection alone. -/
def Stays (name : String) (x : Except Error (Cluster × Effects)) : Prop :=
  ∀ c e, x = .ok (c, e) → e.Within name

namespace Stays
variable {name : String} {α : Type}

theorem pure {c : Cluster} {e : Effects} (h : e.Within name) : Stays name (Pure.pure (c, e)) :=
  Emits.pure h

theorem bind {x : Except Error α} {f : α → Except Error (Cluster × Effects)}
    (h : ∀ a, x = .ok a → Stays name (f a)) : Stays name (x >>= f) :=
  Emits.bind h

theorem ite {p : Prop} [Decidable p] {x y : Except Error (Cluster × Effects)} (hx : Stays name x)
    (hy : Stays name y) : Stays name (if p then x else y) :=
  Emits.ite hx hy

theorem guard {p : Prop} [Decidable p] {e : Error} {f : α → Except Error (Cluster × Effects)}
    {x : Except Error (Cluster × Effects)} (hx : Stays name x) :
    Stays name (if p then throw e >>= f else x) :=
  Emits.guard hx

end Stays

namespace Cluster
open Effects.Within
variable {c c' : Cluster} {name : String} {e : Effects}

theorem rollBack_stays (hs : c.Sound) (forced : Bool)
    (reason : String) : Stays name (c.rollBack name forced reason) := by
  unfold rollBack
  cases ho : c.operation? name with
  | none => exact .pure empty
  | some op =>
    have haborted : ({ aborted := [⟨op, forced, reason⟩] } : Effects).Within name :=
      { empty with aborted := by simp [(hs.named name op ho).1] }
    refine .bind fun coll _ => .bind fun r _ => ?_
    cases op.direction with
    | up => exact .bind fun x _ => .pure (((cancelling _).append (dropping _)).append haborted)
    | down => exact .bind fun x _ => .pure (((cancelling _).append (deleting _ _)).append haborted)

theorem forceAborts_stays (hs : c.Sound) {event : TopologyEvent} (he : event.collection? = some name) :
    Stays name (c.forceAborts event) := by
  unfold forceAborts
  obtain ha | ha := affected_own hs he
  · rw [ha]
    exact .pure empty
  · rw [ha]
    refine .bind fun x hx => .bind fun y hy => ?_
    obtain rfl := Except.ok.inj hy
    exact .pure ((rollBack_stays hs _ _ _ _ hx).append empty)

theorem createCollection_stays (config : CollectionConfig) (placement : Placement) :
    Stays name (c.createCollection name config placement) := by
  refine .guard (.guard ?_)
  cases config.method with
  | auto => exact .guard (.bind fun _ _ => .bind fun _ _ => .bind fun _ _ => .pure empty)
  | custom =>
    exact .ite (.bind fun _ _ => .bind fun _ _ => .bind fun _ _ => .pure empty)
      (.bind fun _ h => (throw_eq_ok.1 h).elim)

theorem deleteCollection_stays (hs : c.Sound) :
    Stays name (c.deleteCollection name) := by
  refine .bind fun _ _ => .bind fun x hx => .pure ?_
  have haborts := forceAborts_stays hs rfl _ _ hx
  exact ((haborts.append (cancelling _)).append (dropping _)).append (announcing rfl)

theorem createShardKey_stays (key : ShardKey) (placement : Placement) :
    Stays name (c.createShardKey name key placement) := by
  refine .bind fun coll _ => .bind fun _ _ => .guard (.guard ?_)
  cases placement.keys.find? coll.shardSet.contains with
  | some q => exact .bind fun _ h => (throw_eq_ok.1 h).elim
  | none => exact .bind fun _ _ => .bind fun _ _ => .pure empty

theorem deleteShardKey_stays (hs : c.Sound)
    (key : ShardKey) : Stays name (c.deleteShardKey name key) := by
  refine .bind fun _ _ => .bind fun _ _ => .guard <| .bind fun x hx => .bind fun coll _ =>
    .bind fun y _ => .pure ?_
  have haborts := forceAborts_stays hs rfl _ _ hx
  exact ((haborts.append (cancelling _)).append (dropping _)).append (announcing rfl)

theorem startResharding_stays (plan : Plan) : Stays plan.operation.collection (c.startResharding plan) := by
  have hstarted : ∀ (transfers : List Transfer) (r : Router), ({
      spawn := (transfers.filter (·.status == .running)).map (copyOf plan.operation.collection r)
      started := [{ plan.operation with stage := .starting }] } : Effects).Within plan.operation.collection := by
    intro transfers r
    refine { empty with spawn := fun x hx => ?_, started := by simp }
    obtain ⟨t, -, rfl⟩ := List.mem_map.1 hx
    rfl
  refine .bind fun _ _ => .bind fun _ _ => .bind fun _ _ => .bind fun coll _ => .bind fun _ _ =>
    .bind fun r _ => .bind fun r' _ => .bind fun table _ => .ite ?_ ?_
  · exact .bind fun _ _ => .pure (hstarted _ _)
  · exact .bind fun _ _ => .pure (hstarted _ _)

theorem commit_stays (a : Action) (f : Router → Except Error Router) : Stays name (c.commit name a f) :=
  .bind fun _ _ => .bind fun _ _ => .bind fun _ _ => .bind fun _ _ => .pure empty

theorem finishResharding_stays (hs : c.Sound) :
    Stays name (c.finishResharding name) := by
  intro c' e h
  obtain ⟨coll, op, r, r', hface, -, -, -, -, hend⟩ := finishResharding_redone h
  have hfinished : ({ finished := [op] } : Effects).Within name :=
    { empty with finished := by simp [(hs.named name op (congrArg Face.operation hface)).1] }
  obtain ⟨-, -, _, -, -, rfl⟩ | ⟨-, -, _, -, -, rfl⟩ := hend
  · exact (deleting _ _).append hfinished
  · exact (dropping _).append hfinished

theorem startTransfer_stays (t : Transfer) : Stays name (c.startTransfer name t) := by
  refine .bind fun _ _ => .bind fun _ _ => .guard (.guard (.bind fun _ _ => .bind fun _ _ => .bind fun s _ =>
    .guard (.guard (.bind fun _ _ => .bind fun _ _ => .pure ?_))))
  exact { empty with spawn := by simp }

theorem finishSlice_stays (coll : Collection) (key : TransferKey) :
    Stays name (c.finishSlice name coll key) := by
  unfold finishSlice
  obtain ⟨transfers, next⟩ := release key.destination coll.transfers
  have hend : ∀ {p : Prop} [Decidable p] (c : Cluster) {spawn : List CopyRequest},
      (∀ x ∈ spawn, x.collection = name) → Stays name (if p then do
        let c ← (·.1) <$> c.advance name .transfersFinished
        pure (c, ({ spawn } : Effects))
      else do
        let c ← pure c
        pure (c, ({ spawn } : Effects))) := by
    intro p _ c spawn hs
    have hspawn : ({ spawn } : Effects).Within name := { empty with spawn := hs }
    exact .ite (.bind fun _ _ => .pure hspawn) (.bind fun _ _ => .pure hspawn)
  cases next with
  | none => exact .bind fun spawn hs => hend _ (by simp [← pure_eq_ok.1 hs])
  | some t => exact .bind fun r _ => .bind fun spawn hs => hend _ (by simp [← pure_eq_ok.1 hs, copyOf])

theorem finishTransfer_stays (key : TransferKey) (epoch : UInt64) :
    Stays name (c.finishTransfer name key epoch) := by
  refine .bind fun coll _ => .bind fun t _ => .bind fun _ _ => .guard (.ite ?_ ?_)
  · exact .bind fun x hx => .pure ((finishSlice_stays _ _ _ _ hx).append (reporting _))
  · exact .bind fun x _ => .pure (reporting _)

theorem discardTransfer_stays (coll : Collection) (key : TransferKey) :
    Stays name (c.discardTransfer name coll key) := by
  exact .bind fun x _ => .pure
    { empty with cleanup := by simp [Cleanup.location, TransferKey.targetLocation] }

theorem failTransfer_stays (hs : c.Sound)
    (key : TransferKey) (epoch : UInt64) (reason : String) :
    Stays name (c.failTransfer name key epoch reason) := by
  refine .bind fun coll _ => .bind fun t _ => .bind fun _ _ => .ite (.bind fun x hx => .pure ?_)
    (.bind fun x hx => .pure ((discardTransfer_stays _ _ _ _ hx).append (reporting _)))
  have hroll := rollBack_stays hs _ _ _ _ hx
  have hfewer : ({ x.2 with cancel := x.2.cancel.filter (· != (name, key)) } : Effects).Within name :=
    { hroll with cancel := fun y hy => hroll.cancel y (List.mem_of_mem_filter hy) }
  exact hfewer.append (reporting _)

theorem abortTransfer_stays (key : TransferKey) : Stays name (c.abortTransfer name key) := by
  have hcancel : ({ cancel := [(name, key)] } : Effects).Within name :=
    { empty with cancel := by simp }
  exact .bind fun _ _ => .bind fun _ _ => .guard <| .bind fun _ hx =>
    .pure (hcancel.append (discardTransfer_stays _ _ _ _ hx))

theorem dropReplica_stays (q : ShardId) (p : PeerId) : Stays name (c.dropReplica name q p) := by
  exact .bind fun _ _ => .bind fun _ _ => .guard <| .bind fun x _ =>
    .pure { empty with cleanup := by simp [Cleanup.location] }

theorem setReplicaState_stays (q : ShardId) (p : PeerId) (s : ReplicaState) :
    Stays name (c.setReplicaState name q p s) :=
  .bind fun _ _ => .guard (.bind fun _ _ => .bind fun _ _ => .pure empty)

/-- Whatever an entry about a collection asks for, it asks for there. -/
theorem apply_stays (hs : c.Sound) {entry : Entry}
    (he : entry.collection? = some name) : Stays name (c.apply entry) := by
  cases entry with
  | addPeer => cases he
  | removePeer => cases he
  | createCollection =>
    cases he
    exact createCollection_stays _ _
  | deleteCollection =>
    cases he
    exact deleteCollection_stays hs
  | createShardKey =>
    cases he
    exact createShardKey_stays _ _
  | deleteShardKey =>
    cases he
    exact deleteShardKey_stays hs _
  | startResharding plan =>
    cases he
    exact startResharding_stays plan
  | commitRead =>
    cases he
    exact commit_stays .commitRead Router.commitRead
  | commitWrite =>
    cases he
    exact commit_stays .commitWrite Router.commitWrite
  | finishResharding =>
    cases he
    exact finishResharding_stays hs
  | abortResharding =>
    cases he
    exact .bind fun _ _ => .bind fun _ _ => rollBack_stays hs _ _
  | startTransfer =>
    cases he
    exact startTransfer_stays _
  | finishTransfer =>
    cases he
    exact finishTransfer_stays _ _
  | failTransfer =>
    cases he
    exact failTransfer_stays hs _ _ _
  | abortTransfer =>
    cases he
    exact abortTransfer_stays _
  | dropReplica =>
    cases he
    exact dropReplica_stays _ _
  | setReplicaState =>
    cases he
    exact setReplicaState_stays _ _ _

end Cluster
end ShardCluster
