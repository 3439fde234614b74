import ShardCluster.Metrics.Counter
import ShardCluster.Metrics.Histogram
/-! What a node counts: operations and copies by their fate, and refused requests. -/
namespace ShardCluster

structure Metrics where
  operationsStarted : Counter := 0
  operationsFinished : Counter := 0
  operationsAborted : Counter := 0
  operationsForceAborted : Counter := 0
  activeOperations : Gauge := 0
  transfersStarted : Counter := 0
  transfersFinished : Counter := 0
  transfersFailed : Counter := 0
  transfersCancelled : Counter := 0
  transferRetries : Counter := 0
  pointsTransferred : Counter := 0
  activeTransfers : Gauge := 0
  durations : Histogram :=
    .ofBounds ([0.01, 0.05, 0.1, 0.5, 1.0, 5.0, 10.0, 30.0, 60.0, 300.0, 900.0].map .ofFloat)
  rejectedRequests : Counter := 0
  rejectedReports : Counter := 0
  deriving Inhabited

namespace Metrics

def operationStarted (m : Metrics) : Metrics :=
  { m with
    operationsStarted := m.operationsStarted.increment
    activeOperations := m.activeOperations.raise }

def operationFinished (m : Metrics) : Metrics :=
  { m with
    operationsFinished := m.operationsFinished.increment
    activeOperations := m.activeOperations.lower }

def operationAborted (forced : Bool) (m : Metrics) : Metrics :=
  { m with
    operationsAborted := m.operationsAborted.increment
    operationsForceAborted := m.operationsForceAborted.add (if forced then 1 else 0)
    activeOperations := m.activeOperations.lower }

def transferStarted (m : Metrics) : Metrics :=
  { m with
    transfersStarted := m.transfersStarted.increment
    activeTransfers := m.activeTransfers.raise }

def transferFinished (d : Duration) (m : Metrics) : Metrics :=
  { m with
    transfersFinished := m.transfersFinished.increment
    activeTransfers := m.activeTransfers.lower
    durations := m.durations.observe d }

def transferFailed (m : Metrics) : Metrics :=
  { m with
    transfersFailed := m.transfersFailed.increment
    activeTransfers := m.activeTransfers.lower }

def transferCancelled (m : Metrics) : Metrics :=
  { m with
    transfersCancelled := m.transfersCancelled.increment
    activeTransfers := m.activeTransfers.lower }

def retried (n : Nat) (m : Metrics) : Metrics :=
  { m with transferRetries := m.transferRetries.add (.ofNat n) }

def copied (points : Nat) (m : Metrics) : Metrics :=
  { m with pointsTransferred := m.pointsTransferred.add (.ofNat points) }

def requestRejected (m : Metrics) : Metrics := { m with rejectedRequests := m.rejectedRequests.increment }

def reportRejected (m : Metrics) : Metrics := { m with rejectedReports := m.rejectedReports.increment }

end Metrics
end ShardCluster
