import ShardCluster.Operation
import ShardCluster.Proofs.Result
import ShardCluster.Proofs.Ring.Movement
import ShardCluster.Router
/-! The rings of a group in the course of an operation: one ring at rest, and two on the way, of
which the second differs from the first in the shard of the operation alone. -/
namespace ShardCluster

/-- The change of the ring that an operation stands for. -/
def Operation.change (op : Operation) : RingChange :=
  match op.direction with
  | .up => .add op.shard
  | .down => .remove op.shard

namespace Router
variable {r r' : Router} {op : Operation}

theorem changed_eq_ok {ring ring' : Ring} : changed ring op.change = .ok ring' ↔
    (op.direction = .up ∧ ring.contains op.shard = false ∧ ring.add op.shard = ring') ∨
    (op.direction = .down ∧ ring.contains op.shard = true ∧ ring.size ≠ 1 ∧
      ring.remove op.shard = ring') := by
  unfold Operation.change
  cases hd : op.direction with
  | up => cases hc : ring.contains op.shard <;> simp [changed, hc]
  | down =>
    cases hc : ring.contains op.shard with
    | false => simp [changed, hc]
    | true => by_cases hs : ring.size = 1 <;> simp [changed, hc, hs]

/-- No change is in flight: the old ring serves reads and writes. -/
structure Idle (r : Router) : Prop where
  new : r.new = none
  read : r.read = r.old
  write : r.write = r.old

/-- The change in flight is that of the operation, and the rings for reads and writes are those of
its stage. -/
structure Follows (r : Router) (op : Operation) : Prop where
  new : ∃ ring, changed r.old.ring op.change = .ok ring ∧ r.new = some ⟨r.old.version + 1, ring⟩
  read : r.read = if op.stage.readCommitted then r.target else r.old
  write : r.write = if op.stage = .awaitingFinish then r.target else r.old

theorem Idle.single (ring : Ring) : (Router.single ring).Idle := ⟨rfl, rfl, rfl⟩

theorem Idle.abort (r : Router) : r.abort.Idle := ⟨rfl, rfl, rfl⟩

theorem Idle.resharding (h : r.Idle) : r.resharding = false := by
  simp [Router.resharding, h.new]

/-- A router at rest is known by its ring. -/
theorem Idle.ext (h : r.Idle) (h' : r'.Idle) (ho : r.old = r'.old) : r = r' := by
  obtain ⟨old, new, read, write⟩ := r
  obtain ⟨old', new', read', write'⟩ := r'
  obtain ⟨h₁, h₂, h₃⟩ := h
  obtain ⟨h₁', h₂', h₃'⟩ := h'
  simp_all

theorem start_eq_ok {change : RingChange} : r.start change = .ok r' ↔
    r.resharding = false ∧ ∃ ring, changed r.old.ring change = .ok ring ∧
      { r with new := some ⟨r.old.version + 1, ring⟩ } = r' := by
  cases hr : r.resharding <;> simp [start, hr, map_eq_ok]

theorem start_old {change : RingChange} (h : r.start change = .ok r') : r'.old = r.old := by
  obtain ⟨-, ring, -, rfl⟩ := start_eq_ok.1 h
  rfl

theorem inFlight_eq_ok {new : VersionedRing} : r.inFlight = .ok new ↔ r.new = some new := by
  cases hn : r.new <;> simp [inFlight, hn]

theorem commitRead_eq_ok : r.commitRead = .ok r' ↔
    ∃ new, r.new = some new ∧ { r with read := new } = r' := by
  simp only [commitRead, bind_eq_ok, pure_eq_ok, inFlight_eq_ok]

theorem commitWrite_eq_ok : r.commitWrite = .ok r' ↔
    ∃ new, r.new = some new ∧ { r with write := new } = r' := by
  simp only [commitWrite, bind_eq_ok, pure_eq_ok, inFlight_eq_ok]

theorem finish_eq_ok : r.finish = .ok r' ↔
    ∃ new, r.new = some new ∧ ⟨new, none, new, new⟩ = r' := by
  simp only [finish, bind_eq_ok, pure_eq_ok, inFlight_eq_ok]

theorem Idle.start (hi : r.Idle) (h : r.start op.change = .ok r') {stage : Stage}
    (hr : stage.readCommitted = false) : r'.Follows { op with stage } := by
  obtain ⟨-, ring, hc, rfl⟩ := start_eq_ok.1 h
  have hf : stage ≠ .awaitingFinish := fun he => by simp [he, Stage.readCommitted] at hr
  exact ⟨⟨ring, hc, rfl⟩, by simp [hr, hi.read], by simp [hf, hi.write]⟩

/-- Only whether reads and writes are committed matters of the stage. -/
theorem Follows.stage (h : r.Follows op) {stage : Stage}
    (hr : stage.readCommitted = op.stage.readCommitted)
    (hw : stage = .awaitingFinish ↔ op.stage = .awaitingFinish) : r.Follows { op with stage } := by
  obtain ⟨hn, hread, hwrite⟩ := h
  exact ⟨hn, by simpa [hr] using hread, by simpa [hw] using hwrite⟩

theorem Follows.commitRead (h : r.Follows op) (hs : op.stage = .awaitingReadCommit)
    (hr : r.commitRead = .ok r') : r'.Follows { op with stage := .awaitingWriteCommit } := by
  obtain ⟨new, hn, rfl⟩ := commitRead_eq_ok.1 hr
  obtain ⟨hnew, -, hwrite⟩ := h
  exact ⟨hnew, by simp [Stage.readCommitted, target, hn], by simpa [hs] using hwrite⟩

theorem Follows.commitWrite (h : r.Follows op) (hs : op.stage = .awaitingWriteCommit)
    (hw : r.commitWrite = .ok r') : r'.Follows { op with stage := .awaitingFinish } := by
  obtain ⟨new, hn, rfl⟩ := commitWrite_eq_ok.1 hw
  obtain ⟨hnew, hread, -⟩ := h
  exact ⟨hnew, by simpa [Stage.readCommitted, hs, target] using hread, by simp [target, hn]⟩

theorem Idle.finish (h : r.finish = .ok r') : r'.Idle := by
  obtain ⟨new, -, rfl⟩ := finish_eq_ok.1 h
  exact ⟨rfl, rfl, rfl⟩

theorem Follows.resharding (h : r.Follows op) : r.resharding = true := by
  obtain ⟨ring, -, hn⟩ := h.new
  simp [Router.resharding, hn]

theorem mem_shards {q : ShardId} : q ∈ r.shards ↔
    r.old.ring.contains q = true ∨ r.target.ring.contains q = true := by
  rw [shards, SortedSet.mem_toList]
  unfold shardSet target
  cases r.new with
  | none => simp [Ring.contains]
  | some new => exact SortedSet.contains_union

theorem contains_shardSet {q : ShardId} : r.shardSet.contains q = true ↔ q ∈ r.shards :=
  SortedSet.mem_toList.symm

theorem Idle.target (h : r.Idle) : r.target = r.old := by simp [Router.target, h.new]

theorem Idle.mem_shards (h : r.Idle) {q : ShardId} : q ∈ r.shards ↔ r.old.ring.contains q = true := by
  rw [Router.mem_shards, h.target, or_self]

section
variable (h : r.Follows op)
include h

theorem Follows.up (hd : op.direction = .up) : r.old.ring.contains op.shard = false ∧
    r.target = ⟨r.old.version + 1, r.old.ring.add op.shard⟩ := by
  obtain ⟨ring, hc, hn⟩ := h.new
  rcases changed_eq_ok.1 hc with ⟨-, hs, rfl⟩ | ⟨hd', -⟩
  · exact ⟨hs, by simp [Router.target, hn]⟩
  · simp [hd] at hd'

theorem Follows.down (hd : op.direction = .down) : r.old.ring.contains op.shard = true ∧
    r.old.ring.size ≠ 1 ∧ r.target = ⟨r.old.version + 1, r.old.ring.remove op.shard⟩ := by
  obtain ⟨ring, hc, hn⟩ := h.new
  rcases changed_eq_ok.1 hc with ⟨hd', -⟩ | ⟨-, hs, hz, rfl⟩
  · simp [hd] at hd'
  · exact ⟨hs, hz, by simp [Router.target, hn]⟩

theorem Follows.mem_shards_up (hd : op.direction = .up) {q : ShardId} :
    q ∈ r.shards ↔ q = op.shard ∨ r.old.ring.contains q = true := by
  rw [mem_shards, (h.up hd).2, Ring.contains_add]
  constructor
  · rintro (ho | hx)
    · exact .inr ho
    · exact hx
  · exact .inr

theorem Follows.mem_shards_down (hd : op.direction = .down) {q : ShardId} :
    q ∈ r.shards ↔ r.old.ring.contains q = true := by
  rw [mem_shards, (h.down hd).2.2, Ring.contains_remove]
  exact ⟨fun hx => hx.elim id And.right, .inl⟩

/-- An operation never leads to an empty ring. -/
theorem Follows.exists_target : ∃ q, r.target.ring.contains q = true := by
  cases hd : op.direction with
  | up => exact ⟨op.shard, by rw [(h.up hd).2]; exact Ring.contains_add.2 (.inl rfl)⟩
  | down =>
    obtain ⟨hin, hsize, ht⟩ := h.down hd
    obtain ⟨q, hq, hne⟩ := SortedMap.exists_other_key (SortedSet.mem_toList.2 hin) hsize
    rw [ht]
    exact ⟨q, Ring.contains_remove.2 ⟨hne, SortedSet.mem_toList.1 hq⟩⟩

/-- The shard of the operation is on one of the rings. -/
theorem Follows.shard_mem : op.shard ∈ r.shards := by
  cases hd : op.direction with
  | up => exact (h.mem_shards_up hd).2 (.inl rfl)
  | down => exact (h.mem_shards_down hd).2 (h.down hd).1

end

theorem mem_writeTargets {id : PointId} {q : ShardId} : q ∈ r.writeTargets id ↔
    r.routeWrite id = some q ∨
      r.resharding = true ∧ (r.routeOld id = some q ∨ r.routeNew id = some q) := by
  have hfold : ∀ l targets : List ShardId, q ∈ l.foldl
      (fun targets shard => if shard ∈ targets then targets else targets ++ [shard]) targets ↔
        q ∈ l ∨ q ∈ targets := by
    intro l
    induction l with
    | nil => simp
    | cons x rest ih =>
      intro targets
      rw [List.foldl_cons, ih, List.mem_cons]
      by_cases hx : x ∈ targets
      · by_cases hq : q = x <;> simp [hx, hq]
      · by_cases hq : q = x <;> simp [hx, hq]
  unfold writeTargets
  cases r.resharding with
  | false => simp [Option.mem_toList]
  | true =>
    rw [if_pos rfl, hfold]
    simp [Option.mem_toList, or_comm]

end Router
end ShardCluster
