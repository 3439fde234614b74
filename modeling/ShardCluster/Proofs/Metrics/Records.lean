import Mathlib.Logic.Function.Iterate
import ShardCluster.Node.Basic
/-! What the effects of an entry make of the counts. A gauge never goes below zero, so its decrements
add up only where each of them finds it above. -/
namespace ShardCluster

namespace Gauge
variable {g : Int} {k : Nat}

/-- So many decrements in a row find the gauge above zero. -/
def Bears (g : Gauge) (k : Nat) : Prop := ∀ j < k, 0 < lower^[j] g

theorem iterate_raise (g : Int) (k : Nat) : raise^[k] g = g + k := by
  induction k with
  | zero => exact (Int.add_zero g).symm
  | succ k ih => rw [Function.iterate_succ_apply', ih, raise, Int.add_assoc, Int.natCast_succ]

theorem lower_of_pos (h : 0 < g) : lower g = g - 1 :=
  Int.max_eq_left (Int.le_sub_one_of_lt h)

theorem iterate_lower (h : k ≤ g) : lower^[k] g = g - k := by
  induction k with
  | zero => exact (Int.sub_zero g).symm
  | succ k ih =>
    have hpos : 0 < g - k := by omega
    rw [Function.iterate_succ_apply', ih (by omega), lower_of_pos hpos, Int.sub_sub, Int.natCast_add]
    rfl

theorem bears_of_le (h : k ≤ g) : Bears g k := by
  intro j hj
  have hpos : 0 < g - j := by omega
  rw [iterate_lower (by omega)]
  exact hpos

end Gauge

theorem Counter.increment_add (c : Counter) (n : Nat) :
    c.increment + .ofNat n = c + .ofNat (n + 1) := by
  rw [increment, add, Nat.add_comm, UInt64.ofNat_add, UInt64.add_assoc]
  rfl

theorem Counter.ofInt_natCast (n : Nat) : UInt64.ofInt n = .ofNat n := by
  have hmod : ((n : Int) % 2 ^ 64).toNat = n % 2 ^ 64 := by omega
  rw [UInt64.ofInt, hmod, UInt64.ofNat_mod_size]

/-- What is counted of operations. -/
structure OperationCounts where
  started : Counter
  finished : Counter
  aborted : Counter
  forced : Counter
  active : Int
  deriving DecidableEq

/-- What is counted of copies. -/
structure CopyCounts where
  started : Counter
  finished : Counter
  failed : Counter
  cancelled : Counter
  active : Int
  deriving DecidableEq

/-- So many copies have started and not ended. -/
structure CopyCounts.Balances (k : CopyCounts) (n : Nat) : Prop where
  active : k.active = n
  total : k.started = k.finished + k.failed + k.cancelled + .ofNat n

/-- What no step of a fold changes. -/
theorem foldl_keeps {σ α β : Type} (p : σ → β) {f : σ → α → σ} (h : ∀ s a, p (f s a) = p s) (l : List α)
    (s : σ) : p (l.foldl f s) = p s := by
  induction l generalizing s with
  | nil => rfl
  | cons a rest ih => rw [List.foldl_cons, ih, h]

namespace Metrics
variable (m : Metrics)

def operations : OperationCounts :=
  ⟨m.operationsStarted, m.operationsFinished, m.operationsAborted, m.operationsForceAborted,
    m.activeOperations⟩

def copies : CopyCounts :=
  ⟨m.transfersStarted, m.transfersFinished, m.transfersFailed, m.transfersCancelled, m.activeTransfers⟩

section
variable {m} {n : Nat}

theorem balances_started (h : m.copies.Balances n) : m.transferStarted.copies.Balances (n + 1) where
  active := congrArg (· + 1) h.active
  total := by
    have htotal := congrArg Counter.increment h.total
    simp only [Counter.increment, Counter.add, UInt64.ofNat_add] at htotal ⊢
    exact htotal.trans (UInt64.add_assoc _ _ _)

/-- Each end of a copy is one end, whichever counter it goes to. -/
theorem lower_active (h : m.copies.Balances (n + 1)) : Gauge.lower m.activeTransfers = n := by
  have hactive : m.activeTransfers = (n + 1 : Nat) := h.active
  rw [hactive, Gauge.lower_of_pos (Int.natCast_pos.2 n.succ_pos), Int.natCast_succ, Int.add_sub_cancel]

theorem total_active (h : m.copies.Balances (n + 1)) : m.transfersStarted =
    (m.transfersFinished + m.transfersFailed + m.transfersCancelled).increment + .ofNat n := by
  rw [Counter.increment_add]
  exact h.total

theorem balances_finished (h : m.copies.Balances (n + 1)) (d : Duration) :
    (m.transferFinished d).copies.Balances n where
  active := lower_active h
  total := by
    refine (total_active h).trans (congrArg (· + UInt64.ofNat n) ?_)
    simp only [copies, transferFinished, Counter.increment, Counter.add]
    ac_rfl

theorem balances_failed (h : m.copies.Balances (n + 1)) : m.transferFailed.copies.Balances n where
  active := lower_active h
  total := by
    refine (total_active h).trans (congrArg (· + UInt64.ofNat n) ?_)
    simp only [copies, transferFailed, Counter.increment, Counter.add]
    ac_rfl

theorem balances_cancelled (h : m.copies.Balances (n + 1)) : m.transferCancelled.copies.Balances n where
  active := lower_active h
  total := by
    refine (total_active h).trans (congrArg (· + UInt64.ofNat n) ?_)
    simp only [copies, transferCancelled, Counter.increment, Counter.add]
    ac_rfl

end

theorem foldl_operationStarted {α : Type} (l : List α) :
    (l.foldl (fun m _ => m.operationStarted) m).operations =
      ⟨m.operations.started + .ofNat l.length, m.operations.finished, m.operations.aborted,
        m.operations.forced, m.operations.active + l.length⟩ := by
  induction l generalizing m with
  | nil => simp [operations]
  | cons a rest ih =>
    have hraise : m.operationStarted.operations.active = m.operations.active + 1 := rfl
    rw [List.foldl_cons, ih, hraise, List.length_cons, ← Counter.increment_add, Int.add_assoc,
      Int.natCast_add, Int.add_comm 1]
    rfl

theorem foldl_operationFinished {α : Type} (l : List α) (h : l.length ≤ m.operations.active) :
    (l.foldl (fun m _ => m.operationFinished) m).operations =
      ⟨m.operations.started, m.operations.finished + .ofNat l.length, m.operations.aborted,
        m.operations.forced, m.operations.active - l.length⟩ := by
  induction l generalizing m with
  | nil => simp [operations]
  | cons a rest ih =>
    rw [List.length_cons] at h
    have hpos : 0 < m.operations.active := by omega
    have hlower : m.operationFinished.operations.active = m.operations.active - 1 :=
      Gauge.lower_of_pos hpos
    rw [List.foldl_cons, ih _ (by omega), hlower, List.length_cons, ← Counter.increment_add,
      Int.sub_sub, Int.natCast_add, Int.add_comm 1]
    rfl

theorem foldl_operationAborted (l : List Aborted) (h : l.length ≤ m.operations.active) :
    (l.foldl (fun m a => m.operationAborted a.forced) m).operations =
      ⟨m.operations.started, m.operations.finished, m.operations.aborted + .ofNat l.length,
        m.operations.forced + .ofNat (l.countP (·.forced)), m.operations.active - l.length⟩ := by
  induction l generalizing m with
  | nil => simp [operations]
  | cons a rest ih =>
    rw [List.length_cons] at h
    have hpos : 0 < m.operations.active := by omega
    have hlower : (m.operationAborted a.forced).operations.active = m.operations.active - 1 :=
      Gauge.lower_of_pos hpos
    have hforced : (m.operationAborted a.forced).operations.forced + .ofNat (rest.countP (·.forced)) =
        m.operations.forced + .ofNat ((a :: rest).countP (·.forced)) := by
      cases hf : a.forced with
      | true =>
        rw [List.countP_cons_of_pos hf]
        exact Counter.increment_add _ _
      | false =>
        rw [List.countP_cons_of_neg (by simp [hf])]
        simp [operations, operationAborted, Counter.add]
    rw [List.foldl_cons, ih _ (by omega), hlower, hforced, List.length_cons, ← Counter.increment_add,
      Int.sub_sub, Int.natCast_add, Int.add_comm 1]
    rfl

end Metrics

namespace Node

/-- The counts after effects, where the gauge can bear them. -/
theorem operations_countEffects (m : Metrics) (e : Effects)
    (h : e.finished.length + e.aborted.length ≤ m.operations.active + e.started.length) :
    (countEffects m e).operations =
      ⟨m.operations.started + .ofNat e.started.length, m.operations.finished + .ofNat e.finished.length,
        m.operations.aborted + .ofNat e.aborted.length,
        m.operations.forced + .ofNat (e.aborted.countP (·.forced)),
        m.operations.active + e.started.length - e.finished.length - e.aborted.length⟩ := by
  have hstarted := m.foldl_operationStarted e.started
  have hfinished := (e.started.foldl (fun m _ => m.operationStarted) m).foldl_operationFinished e.finished
    (by rw [hstarted]; simp only; omega)
  rw [hstarted] at hfinished
  rw [countEffects, Metrics.foldl_operationAborted _ _ (by rw [hfinished]; simp only; omega), hfinished]

theorem copies_countEffects (m : Metrics) (e : Effects) : (countEffects m e).copies = m.copies := by
  have hstarted := foldl_keeps Metrics.copies (f := fun m (_ : Operation) => m.operationStarted)
    fun _ _ => rfl
  have hfinished := foldl_keeps Metrics.copies (f := fun m (_ : Operation) => m.operationFinished)
    fun _ _ => rfl
  have haborted := foldl_keeps Metrics.copies (f := fun m (a : Aborted) => m.operationAborted a.forced)
    fun _ _ => rfl
  rw [countEffects, haborted, hfinished, hstarted]

end Node
end ShardCluster
