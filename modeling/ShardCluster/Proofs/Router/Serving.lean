import ShardCluster.Proofs.Router.Phases
/-! Which shards a group's rings give a point to, and how that changes with the rings. -/
namespace ShardCluster

/-- Points go to shards of the ring, and every shard holds its positions. -/
structure Ring.Even (r : Ring) : Prop where
  owned : r.Owned
  spread : r.Spread

namespace Router
variable {r r' : Router} {op : Operation} {id : PointId} {q : ShardId}

structure Even (r : Router) : Prop where
  old : r.old.ring.Even
  target : r.target.ring.Even

/-- One of the rings gives the point to the shard. -/
def Serves (r : Router) (id : PointId) (q : ShardId) : Prop :=
  r.routeOld id = some q ∨ r.routeNew id = some q

theorem Even.old_contains (h : r.Even) (hq : r.routeOld id = some q) :
    r.old.ring.contains q = true :=
  h.old.owned.route hq

theorem Even.mem_shards (h : r.Even) (hs : r.Serves id q) : q ∈ r.shards := by
  rw [Router.mem_shards]
  exact hs.imp h.old.owned.route h.target.owned.route

theorem Even.single {n : Nat} {keys : List ShardId}
    (h : Ring.Apart (Router.single (.ofShards n keys)).old.ring.perShard
      (Router.single (.ofShards n keys)).shards) : (Router.single (.ofShards n keys)).Even := by
  have hper : (Ring.ofShards n keys).perShard = max n 1 := Ring.perShard_ofShards n keys
  have hmem : ∀ s ∈ keys, s ∈ (Router.single (.ofShards n keys)).shards := fun s hs =>
    (Idle.single _).mem_shards.2 (Ring.contains_ofShards.2 hs)
  have ha : Ring.Apart (max n 1) keys := fun s hs t ht hne i hi j hj =>
    h s (hmem s hs) t (hmem t ht) hne i (by rw [Router.single, hper]; exact hi) j
      (by rw [Router.single, hper]; exact hj)
  exact ⟨⟨.ofShards n keys, .ofShards ha⟩, ⟨.ofShards n keys, .ofShards ha⟩⟩

theorem Even.abort (h : r.Even) : r.abort.Even := ⟨h.old, h.old⟩

theorem Even.finish (h : r.Even) (hr : r.finish = .ok r') : r'.Even := by
  obtain ⟨new, hn, rfl⟩ := finish_eq_ok.1 hr
  have ht : new.ring.Even := by
    have hall := h.target
    rwa [Router.target, hn, Option.getD_some] at hall
  exact ⟨ht, ht⟩

/-- A commit leaves the two rings as they are. -/
theorem commitRead_rings (hr : r.commitRead = .ok r') : r'.old = r.old ∧ r'.new = r.new := by
  obtain ⟨new, -, rfl⟩ := commitRead_eq_ok.1 hr
  exact ⟨rfl, rfl⟩

theorem commitWrite_rings (hr : r.commitWrite = .ok r') : r'.old = r.old ∧ r'.new = r.new := by
  obtain ⟨new, -, rfl⟩ := commitWrite_eq_ok.1 hr
  exact ⟨rfl, rfl⟩

/-- The ring for reads or for writes does not matter. -/
theorem Even.congr (h : r.Even) (ho : r'.old = r.old) (hn : r'.new = r.new) : r'.Even :=
  ⟨ho ▸ h.old, by rw [Router.target, hn, ho]; exact h.target⟩

theorem Even.start (h : r.Even) (hi : r.Idle) (hr : r.start op.change = .ok r')
    (ha : Ring.Apart r'.old.ring.perShard r'.shards) : r'.Even := by
  have hf : r'.Follows { op with stage := .starting } := hi.start hr rfl
  have hold : r'.old = r.old := start_old hr
  have hring : r'.old.ring.Even := hold ▸ h.old
  refine ⟨hring, ?_⟩
  cases hd : op.direction with
  | up =>
    rw [(hf.up hd).2]
    refine ⟨hring.owned.add _, hring.spread.add fun t ht hne i hi j hj => ?_⟩
    exact ha _ hf.shard_mem _ ((hf.mem_shards_up hd).2 (.inr ht)) hne i hi j hj
  | down =>
    rw [(hf.down hd).2.2]
    exact ⟨hring.owned.remove _, hring.spread.remove _⟩

/-- Every point has an owner. -/
theorem Even.routeOld (h : r.Even) {s : ShardId} (hs : r.old.ring.contains s = true)
    (id : PointId) : ∃ q, r.routeOld id = some q :=
  h.old.spread.route hs id

section
variable (hi : r.Idle)
include hi

theorem Idle.routeNew : r.routeNew id = r.routeOld id := by
  rw [Router.routeNew, Router.routeOld, hi.target]

theorem Idle.serves : r.Serves id q ↔ r.routeOld id = some q := by
  rw [Serves, hi.routeNew, or_self]

end

section
variable (hf : r.Follows op)
include hf

/-- Where points move in a group that grows, they move to the shard that comes. -/
theorem Follows.routeNew_up (hd : op.direction = .up) (id : PointId) :
    r.routeNew id = some op.shard ∨ r.routeNew id = r.routeOld id := by
  rw [Router.routeNew, (hf.up hd).2]
  exact Ring.route_add _ _ _

/-- Where points move in a group that shrinks, they move from the shard that goes. -/
theorem Follows.routeOld_down (hd : op.direction = .down) (id : PointId) :
    r.routeOld id = some op.shard ∨ r.routeOld id = r.routeNew id := by
  rw [Router.routeNew, (hf.down hd).2.2]
  exact Ring.route_remove (hf.down hd).1 _

theorem Follows.routeOld_ne (he : r.Even) (hd : op.direction = .up)
    (hq : r.routeOld id = some q) : q ≠ op.shard := by
  intro h
  have hin := he.old_contains hq
  rw [h, (hf.up hd).1] at hin
  cases hin

theorem Follows.routeNew_ne (he : r.Even) (hd : op.direction = .down)
    (hq : r.routeNew id = some q) : q ≠ op.shard := by
  intro h
  rw [Router.routeNew, (hf.down hd).2.2, h] at hq
  exact Ring.route_remove_ne he.old.owned _ _ hq

/-- The slice of the shard that goes has what the old ring gives it. -/
theorem Follows.slice_down (hd : op.direction = .down) (id : PointId) :
    (r.slice op.shard).selects id = true ↔ r.routeOld id = some op.shard := by
  obtain ⟨-, -, ht⟩ := hf.down hd
  have hsize : ¬r.old.ring.size < (r.old.ring.remove op.shard).size :=
    Nat.not_lt_of_le (Ring.size_remove_le r.old.ring op.shard)
  obtain ⟨ring, -, hn⟩ := hf.new
  have hring : ring = r.old.ring.remove op.shard := by
    rw [Router.target, hn, Option.getD_some] at ht
    exact congrArg VersionedRing.ring ht
  simp only [slice, hn, hring, if_neg hsize, Slice.selects, beq_iff_eq]
  rfl

end

/-- After an abort the old ring decides. -/
theorem serves_abort : r.abort.Serves id q ↔ r.routeOld id = some q :=
  (Idle.abort r).serves

/-- After the end of an operation the new ring decides. -/
theorem serves_finish (h : r.finish = .ok r') : r'.Serves id q ↔ r.routeNew id = some q := by
  rw [(Idle.finish h).serves]
  obtain ⟨new, hn, rfl⟩ := finish_eq_ok.1 h
  rw [Router.routeNew, target, hn]
  rfl

theorem mem_shards_finish (h : r.finish = .ok r') :
    q ∈ r'.shards ↔ r.target.ring.contains q = true := by
  rw [(Idle.finish h).mem_shards]
  obtain ⟨new, hn, rfl⟩ := finish_eq_ok.1 h
  rw [target, hn]
  rfl

theorem serves_congr (ho : r'.old = r.old) (hn : r'.new = r.new) :
    r'.Serves id q ↔ r.Serves id q := by
  rw [Serves, Serves, Router.routeOld, Router.routeNew, target, ho, hn]
  rfl

/-- A write reaches the shards that the rings give its points to. -/
theorem mem_writeTargets_iff (h : r.Idle ∨ ∃ op, r.Follows op) :
    q ∈ r.writeTargets id ↔ r.Serves id q := by
  rw [mem_writeTargets]
  obtain hi | ⟨op, hf⟩ := h
  · have hw : r.routeWrite id = r.routeOld id := by rw [routeWrite, hi.write, Router.routeOld]
    simp [hi.resharding, hw, hi.serves]
  · refine ⟨fun hx => hx.elim (fun hw => ?_) And.right, fun hs => .inr ⟨hf.resharding, hs⟩⟩
    rw [routeWrite, hf.write] at hw
    split at hw
    · exact .inr hw
    · exact .inl hw

/-- Reads go by one of the rings. -/
theorem Follows.routeRead (hf : r.Follows op) :
    r.routeRead id = if op.stage.readCommitted then r.routeNew id else r.routeOld id := by
  rw [Router.routeRead, hf.read]
  split <;> rfl

end Router
end ShardCluster
