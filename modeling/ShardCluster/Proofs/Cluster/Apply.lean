import ShardCluster.Cluster.Apply
import ShardCluster.Proofs.Cluster.Shape
/-! What an accepted entry does to each collection, and runs of accepted entries. -/
namespace ShardCluster

/-- Entries that schedule transfers raise the epoch. -/
def Entry.raise : Entry → UInt64
  | .startResharding _ | .startTransfer .. => 1
  | _ => 0

namespace Cluster
variable {c c' : Cluster} {e : Effects}

theorem Touched.rolledBack {name : String} {raise : UInt64} {entry : Entry}
    (h : Touched RollsBack raise name c e c') : Touched (Change name (c.epoch + 1) entry) raise name c e c' :=
  ⟨h.redone, h.epoch, .rolledBack h.change, h.within⟩

theorem Touched.step_epoch {name : String} {entry : Entry} {raise : UInt64} (hs : c.Sound)
    (h : Touched (Change name (c.epoch + 1) entry) raise name c e c')
    (hn : ∀ config placement, entry ≠ .createCollection name config placement) :
    Step c entry e c' ∧ c'.epoch = c.epoch + raise :=
  ⟨h.step hs hn, h.epoch⟩

/-- Every accepted entry is a change of each collection, or leaves it alone. -/
theorem apply_step_epoch (hs : c.Sound) {entry : Entry} (h : c.apply entry = .ok (c', e)) :
    Step c entry e c' ∧ c'.epoch = c.epoch + entry.raise := by
  have hzero : ∀ {x : UInt64}, x = c.epoch → x = c.epoch + 0 := fun hx => by simpa using hx
  cases entry with
  | addPeer peer =>
    refine ⟨addPeer_step hs h, ?_⟩
    obtain ⟨-, rfl, -⟩ := addPeer_eq_ok.1 h
    exact hzero rfl
  | removePeer peer force => exact (removePeer_step hs h).imp id hzero
  | createCollection name config placement => exact (createCollection_step hs h).imp id hzero
  | deleteCollection name => exact (deleteCollection_step hs h).imp id hzero
  | createShardKey name key placement =>
    exact (createShardKey_touched hs h).step_epoch hs fun _ _ => by simp
  | deleteShardKey name key => exact (deleteShardKey_step hs h).imp id hzero
  | startResharding plan => exact (startResharding_touched h).step_epoch hs fun _ _ => by simp
  | commitRead name => exact (commitRead_touched hs h).step_epoch hs fun _ _ => by simp
  | commitWrite name => exact (commitWrite_touched hs h).step_epoch hs fun _ _ => by simp
  | finishResharding name => exact (finishResharding_touched h).step_epoch hs fun _ _ => by simp
  | abortResharding name forced reason =>
    exact (abortResharding_touched h).rolledBack.step_epoch hs fun _ _ => by simp
  | startTransfer name t => exact (startTransfer_touched h).step_epoch hs fun _ _ => by simp
  | finishTransfer name key epoch =>
    exact (finishTransfer_touched hs h).step_epoch hs fun _ _ => by simp
  | failTransfer name key epoch reason =>
    exact (failTransfer_touched hs h).step_epoch hs fun _ _ => by simp
  | abortTransfer name key => exact (abortTransfer_touched hs h).step_epoch hs fun _ _ => by simp
  | dropReplica name q p => exact (dropReplica_touched hs h).step_epoch hs fun _ _ => by simp
  | setReplicaState name q p state =>
    exact (setReplicaState_touched hs h).step_epoch hs fun _ _ => by simp

theorem apply_step (hs : c.Sound) {entry : Entry} (h : c.apply entry = .ok (c', e)) :
    Step c entry e c' :=
  (apply_step_epoch hs h).1

/-- Clusters that accepted entries make of a new one; each entry may be held to a condition. -/
inductive Reached (allowed : Cluster → Entry → Prop) : Cluster → Prop
  | new (home : PeerId) (ringPositions : Nat) : Reached allowed (.new home ringPositions)
  | step {c c' : Cluster} {entry : Entry} {e : Effects} (hc : Reached allowed c)
      (ha : allowed c entry) (h : c.apply entry = .ok (c', e)) : Reached allowed c'

theorem Sound.new (home : PeerId) (ringPositions : Nat) : (Cluster.new home ringPositions).Sound where
  registered _ := rfl
  named _ _ h := by cases h
  tidy _ _ _ _ h := by cases h

theorem Reached.sound {allowed : Cluster → Entry → Prop} (h : Reached allowed c) : c.Sound := by
  induction h with
  | new home n => exact Sound.new home n
  | step _ _ h ih => exact (apply_step ih h).sound

/-- Accepted entries one after the other, each with its effects. -/
inductive Trace (allowed : Cluster → Entry → Prop) (c : Cluster) :
    List (Entry × Effects) → Cluster → Prop
  | start : Trace allowed c [] c
  | step {past : List (Entry × Effects)} {c' c'' : Cluster} {entry : Entry} {e : Effects}
      (h : Trace allowed c past c') (ha : allowed c' entry) (hx : c'.apply entry = .ok (c'', e)) :
      Trace allowed c (past ++ [(entry, e)]) c''

theorem Trace.reached {allowed : Cluster → Entry → Prop} {past : List (Entry × Effects)}
    (h : Trace allowed c past c') (hc : Reached allowed c) : Reached allowed c' := by
  induction h with
  | start => exact hc
  | step _ ha hx ih => exact ih.step ha hx

/-- A log that applies without an error is a run, where each entry is allowed anywhere. -/
theorem Reached.applyAll {allowed : Cluster → Entry → Prop} {entries : List Entry}
    (hc : Reached allowed c) (ha : ∀ entry ∈ entries, ∀ c, allowed c entry)
    (h : c.applyAll entries = .ok c') : Reached allowed c' := by
  induction entries generalizing c with
  | nil =>
    obtain rfl : c = c' := by simpa [Cluster.applyAll] using h
    exact hc
  | cons entry rest ih =>
    simp only [Cluster.applyAll, bind_eq_ok] at h
    obtain ⟨⟨c₁, e₁⟩, happly, hrest⟩ := h
    obtain ⟨hfirst, hlater⟩ := List.forall_mem_cons.1 ha
    exact ih (hc.step (hfirst c) happly) hlater hrest

section
variable {allowed : Cluster → Entry → Prop} {P : Face → Prop} {Q : String → Entry → Face → Prop}

/-- One entry: what every rollback and every change keeps holds of each collection after it. -/
theorem Step.invariant {entry : Entry} (h : Step c entry e c')
    (hroll : ∀ {F w F'}, P F → RollsBack F w F' → P F')
    (hkeep : ∀ {n epoch F w F'}, P F → Q n entry F → Change n epoch entry F w F' → P F')
    (n : String) (hP : P (c.face n)) (hQ : Q n entry (c.face n))
    (hQ' : ∀ w F', RollsBack (c.face n) w F' → Q n entry F') : P (c'.face n) := by
  have hch := h.changes n
  generalize c.face n = F at *
  generalize c'.face n = F' at *
  generalize e.wake n = w at *
  cases hch with
  | none => exact hP
  | one h => exact hkeep hP hQ h
  | two h h' => exact hkeep (hroll hP h) (hQ' _ _ h) h'

/-- A run: `Q` is what an allowed entry promises to the collection that it changes. -/
theorem Reached.invariant (hnone : P ⟨none, none, .none⟩)
    (hroll : ∀ {F w F'}, P F → RollsBack F w F' → P F')
    (hkeep : ∀ {n epoch entry F w F'}, P F → Q n entry F → Change n epoch entry F w F' → P F')
    (hQ : ∀ {c entry}, c.Sound → (∀ n, P (c.face n)) → allowed c entry → ∀ n, Q n entry (c.face n) ∧
      ∀ w F', RollsBack (c.face n) w F' → Q n entry F')
    (h : Reached allowed c) (n : String) : P (c.face n) := by
  induction h generalizing n with
  | new home positions => exact hnone
  | step hc ha h ih =>
    obtain ⟨hq, hq'⟩ := hQ hc.sound ih ha n
    exact (apply_step hc.sound h).invariant hroll hkeep n (ih n) hq hq'

end
end Cluster
end ShardCluster
