import ShardCluster.Cluster.Apply
/-! A cluster together with the entries that made it. -/
namespace ShardCluster

structure History where
  home : PeerId
  ringPositions : Nat
  entries : List Entry := []
  cluster : Cluster := .new home ringPositions
  deriving Inhabited

namespace History

/-- Apply one more entry; a refused one leaves no trace. -/
def commit (h : History) (e : Entry) : Except Error (History × Effects) := do
  let (cluster, effects) ← h.cluster.apply e
  return ({ h with cluster, entries := h.entries ++ [e] }, effects)

/-- The cluster that the entries make on a fresh start. -/
def replayed (h : History) : Except Error Cluster :=
  Cluster.replay h.home h.ringPositions h.entries

/-- Report running transfers of a collection as finished, the first one first, at most so many.
Returns their keys, and the error that ended it, if any. -/
def finishRunning (name : String) : Nat → History → History × List TransferKey × Option Error
  | 0, h => (h, [], none)
  | n + 1, h =>
    match (h.cluster.transfers name).find? (·.status == .running) with
    | none => (h, [], none)
    | some t =>
      match h.commit (.finishTransfer name t.key t.epoch) with
      | .error e => (h, [], some e)
      | .ok (h, _) =>
        let (h, keys, error) := finishRunning name n h
        (h, t.key :: keys, error)

/-- Every finished transfer leaves the table, so there are no more of them than it holds. -/
def finishAll (h : History) (name : String) : History × List TransferKey × Option Error :=
  finishRunning name (h.cluster.transfers name).length h

end History
end ShardCluster
