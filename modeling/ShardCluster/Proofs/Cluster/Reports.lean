import ShardCluster.Cluster.Apply
import ShardCluster.Proofs.Cluster.Transfers
/-! Only reports take transfers out of the table as completed, and a report the one that it names. -/
namespace ShardCluster

/-- A computation whose effects, where it has any, are as `P` says. -/
def Emits (P : Effects → Prop) (x : Except Error (Cluster × Effects)) : Prop :=
  ∀ c e, x = .ok (c, e) → P e

namespace Emits
variable {P : Effects → Prop} {α : Type} {x y : Except Error (Cluster × Effects)}

theorem pure {c : Cluster} {e : Effects} (h : P e) : Emits P (Pure.pure (c, e)) := by
  intro _ _ hx
  obtain ⟨-, rfl⟩ := Prod.mk.inj (pure_eq_ok.1 hx)
  exact h

theorem throw {e : Error} : Emits P (throw e) := fun _ _ hx => (throw_eq_ok.1 hx).elim

theorem bind {x : Except Error α} {f : α → Except Error (Cluster × Effects)}
    (h : ∀ a, x = .ok a → Emits P (f a)) : Emits P (x >>= f) := by
  intro c e hx
  obtain ⟨a, ha, hf⟩ := bind_eq_ok.1 hx
  exact h a ha c e hf

theorem ite {p : Prop} [Decidable p] (hx : Emits P x) (hy : Emits P y) :
    Emits P (if p then x else y) := by
  by_cases hp : p
  · rwa [if_pos hp]
  · rwa [if_neg hp]

theorem guard {p : Prop} [Decidable p] {e : Error} {f : α → Except Error (Cluster × Effects)}
    (hx : Emits P x) : Emits P (if p then MonadExcept.throw e >>= f else x) :=
  ite (bind fun _ h => (throw_eq_ok.1 h).elim) hx

end Emits

/-- The transfer that an entry reports on. -/
def Entry.reported : Entry → Option (String × TransferKey)
  | .finishTransfer name key _ | .failTransfer name key _ _ => some (name, key)
  | _ => none

/-- Effects that take no transfer out of the table as completed. -/
def Effects.Silent (e : Effects) : Prop := e.completed = []

namespace Effects.Silent
variable {e e' : Effects} {name : String}

theorem append (h : e.Silent) (h' : e'.Silent) : (e ++ e').Silent := List.append_eq_nil_iff.2 ⟨h, h'⟩

theorem cancelling (l : List Transfer) : (Effects.cancelling name l).Silent := rfl

theorem dropping (l : List Replica) : (Effects.dropping name l).Silent := rfl

theorem announcing (event : TopologyEvent) : ({ events := [event] } : Effects).Silent := rfl

end Effects.Silent

namespace Cluster
open Effects
variable {c c' : Cluster} {name : String} {e : Effects}

theorem rollBack_silent (forced : Bool) (reason : String) :
    Emits Silent (c.rollBack name forced reason) := by
  unfold rollBack
  cases c.operation? name with
  | none => exact .pure rfl
  | some op =>
    refine .bind fun coll _ => .bind fun r _ => ?_
    cases op.direction with
    | up => exact .bind fun _ _ => .pure rfl
    | down => exact .bind fun _ _ => .pure rfl

theorem rollBackAll_silent (reason : String) (names : List String) :
    Emits Silent (c.rollBackAll reason names) := by
  induction names generalizing c with
  | nil => exact .pure rfl
  | cons n rest ih =>
    exact .bind fun x hx => .bind fun y hy => .pure ((rollBack_silent _ _ _ _ hx).append (ih _ _ hy))

theorem forceAborts_silent (event : TopologyEvent) : Emits Silent (c.forceAborts event) :=
  rollBackAll_silent _ _

theorem addPeer_silent (peer : PeerId) : Emits Silent (c.addPeer peer) :=
  .ite .throw (.pure rfl)

theorem removePeer_silent (peer : PeerId) (force : Bool) : Emits Silent (c.removePeer peer force) :=
  .bind fun _ _ => .guard <| .bind fun _ hx => .bind fun _ _ => .bind fun _ _ =>
    .pure ((forceAborts_silent _ _ _ hx).append rfl)

theorem createCollection_silent (config : CollectionConfig) (placement : Placement) :
    Emits Silent (c.createCollection name config placement) := by
  refine .guard (.guard ?_)
  cases config.method with
  | auto => exact .guard (.bind fun _ _ => .bind fun _ _ => .bind fun _ _ => .pure rfl)
  | custom =>
    exact .ite (.bind fun _ _ => .bind fun _ _ => .bind fun _ _ => .pure rfl)
      (.bind fun _ h => (throw_eq_ok.1 h).elim)

theorem deleteCollection_silent : Emits Silent (c.deleteCollection name) :=
  .bind fun _ _ => .bind fun _ hx =>
    .pure ((((forceAborts_silent _ _ _ hx).append (.cancelling _)).append (.dropping _)).append
      (.announcing _))

theorem createShardKey_silent (key : ShardKey) (placement : Placement) :
    Emits Silent (c.createShardKey name key placement) := by
  refine .bind fun coll _ => .bind fun _ _ => .guard (.guard ?_)
  cases placement.keys.find? coll.shardSet.contains with
  | some q => exact .bind fun _ h => (throw_eq_ok.1 h).elim
  | none => exact .bind fun _ _ => .bind fun _ _ => .pure rfl

theorem deleteShardKey_silent (key : ShardKey) : Emits Silent (c.deleteShardKey name key) :=
  .bind fun _ _ => .bind fun _ _ => .guard <| .bind fun _ hx => .bind fun _ _ => .bind fun _ _ =>
    .pure ((((forceAborts_silent _ _ _ hx).append (.cancelling _)).append (.dropping _)).append
      (.announcing _))

theorem startResharding_silent (plan : Plan) : Emits Silent (c.startResharding plan) :=
  .bind fun _ _ => .bind fun _ _ => .bind fun _ _ => .bind fun _ _ => .bind fun _ _ => .bind fun _ _ =>
    .bind fun _ _ => .bind fun _ _ => .ite (.bind fun _ _ => .pure rfl) (.bind fun _ _ => .pure rfl)

theorem commit_silent (a : Action) (f : Router → Except Error Router) :
    Emits Silent (c.commit name a f) :=
  .bind fun _ _ => .bind fun _ _ => .bind fun _ _ => .bind fun _ _ => .pure rfl

theorem finishResharding_silent : Emits Silent (c.finishResharding name) := by
  intro c' e h
  obtain ⟨_, _, _, _, _, -, -, -, -, hend⟩ := finishResharding_redone h
  obtain ⟨-, -, _, -, -, rfl⟩ | ⟨-, -, _, -, -, rfl⟩ := hend
  · rfl
  · rfl

theorem abortResharding_silent (forced : Bool) (reason : String) :
    Emits Silent (c.abortResharding name forced reason) :=
  .bind fun _ _ => .bind fun _ _ => rollBack_silent _ _

theorem startTransfer_silent (t : Transfer) : Emits Silent (c.startTransfer name t) :=
  .bind fun _ _ => .bind fun _ _ => .guard <| .guard <| .bind fun _ _ => .bind fun _ _ =>
    .bind fun _ _ => .guard <| .guard <| .bind fun _ _ => .bind fun _ _ => .pure rfl

theorem discardTransfer_silent (coll : Collection) (key : TransferKey) :
    Emits Silent (c.discardTransfer name coll key) :=
  .bind fun _ _ => .pure rfl

theorem abortTransfer_silent (key : TransferKey) : Emits Silent (c.abortTransfer name key) :=
  .bind fun _ _ => .bind fun _ _ => .guard <| .bind fun _ hx =>
    .pure ((show Silent { cancel := [(name, key)] } from rfl).append (discardTransfer_silent _ _ _ _ hx))

theorem dropReplica_silent (q : ShardId) (p : PeerId) : Emits Silent (c.dropReplica name q p) :=
  .bind fun _ _ => .bind fun _ _ => .guard <| .bind fun _ _ => .pure rfl

theorem setReplicaState_silent (q : ShardId) (p : PeerId) (s : ReplicaState) :
    Emits Silent (c.setReplicaState name q p s) :=
  .bind fun _ _ => .guard <| .bind fun _ _ => .bind fun _ _ => .pure rfl

theorem finishSlice_silent (coll : Collection) (key : TransferKey) :
    Emits Silent (c.finishSlice name coll key) := by
  intro c' e h
  obtain ⟨_, rfl, -⟩ := finishSlice_redone h
  rfl

/-- A report completes the transfer that it names. -/
theorem completed_of_find {coll : Collection} {key : TransferKey} {t : Transfer}
    {status : TransferStatus} (hfind : coll.find key = .ok t) (he : e.Silent) :
    ∀ x ∈ (e ++ { completed := [(name, { t with status })] }).completed,
      x.1 = name ∧ x.2.key = key := by
  intro x hx
  have hx : x ∈ e.completed ++ [(name, { t with status })] := hx
  rw [he, List.nil_append, List.mem_singleton] at hx
  subst hx
  exact ⟨rfl, (Collection.find_eq_ok hfind).2⟩

theorem finishTransfer_completed (key : TransferKey) (epoch : UInt64) :
    Emits (fun e => ∀ x ∈ e.completed, x.1 = name ∧ x.2.key = key)
      (c.finishTransfer name key epoch) := by
  refine .bind fun coll _ => .bind fun t hfind => .bind fun _ _ => .guard (.ite ?_ ?_)
  · exact .bind fun _ hx => .pure (completed_of_find hfind (finishSlice_silent _ _ _ _ hx))
  · exact .bind fun _ _ => .pure (completed_of_find (e := {}) hfind rfl)

theorem failTransfer_completed (key : TransferKey) (epoch : UInt64) (reason : String) :
    Emits (fun e => ∀ x ∈ e.completed, x.1 = name ∧ x.2.key = key)
      (c.failTransfer name key epoch reason) := by
  refine .bind fun coll _ => .bind fun t hfind => .bind fun _ _ => .ite (.bind fun x hx => ?_) ?_
  · have hroll : x.2.Silent := rollBack_silent _ _ _ _ hx
    have hfewer : ({ x.2 with cancel := x.2.cancel.filter (· != (name, key)) } : Effects).Silent := hroll
    exact .pure (completed_of_find hfind hfewer)
  · exact .bind fun _ hx => .pure (completed_of_find hfind (discardTransfer_silent _ _ _ _ hx))

/-- A completed transfer was reported. -/
theorem apply_completed {entry : Entry} (h : c.apply entry = .ok (c', e)) :
    ∀ x ∈ e.completed, entry.reported = some (x.1, x.2.key) := by
  have hnone : Emits Silent (c.apply entry) →
      ∀ x ∈ e.completed, entry.reported = some (x.1, x.2.key) := by
    intro hs x hx
    have he : e.completed = [] := hs c' e h
    rw [he] at hx
    cases hx
  cases entry with
  | addPeer peer => exact hnone (addPeer_silent peer)
  | removePeer peer force => exact hnone (removePeer_silent peer force)
  | createCollection name config placement => exact hnone (createCollection_silent config placement)
  | deleteCollection name => exact hnone deleteCollection_silent
  | createShardKey name key placement => exact hnone (createShardKey_silent key placement)
  | deleteShardKey name key => exact hnone (deleteShardKey_silent key)
  | startResharding plan => exact hnone (startResharding_silent plan)
  | commitRead name => exact hnone (commit_silent .commitRead Router.commitRead)
  | commitWrite name => exact hnone (commit_silent .commitWrite Router.commitWrite)
  | finishResharding name => exact hnone finishResharding_silent
  | abortResharding name forced reason => exact hnone (abortResharding_silent forced reason)
  | startTransfer name t => exact hnone (startTransfer_silent t)
  | finishTransfer name key epoch =>
    intro x hx
    obtain ⟨rfl, rfl⟩ := finishTransfer_completed key epoch c' e h x hx
    rfl
  | failTransfer name key epoch reason =>
    intro x hx
    obtain ⟨rfl, rfl⟩ := failTransfer_completed key epoch reason c' e h x hx
    rfl
  | abortTransfer name key => exact hnone (abortTransfer_silent key)
  | dropReplica name q p => exact hnone (dropReplica_silent q p)
  | setReplicaState name q p state => exact hnone (setReplicaState_silent q p state)

end Cluster
end ShardCluster
