import ShardCluster.Decimal.Shortest
import ShardCluster.Metrics.Basic
/-! The text in which metrics are scraped: for each metric its meaning, its kind and its values. -/
namespace ShardCluster.Metrics

/-- Name, meaning and value of each counter. -/
def counters (m : Metrics) : List (String × String × Counter) :=
  [("resharding_operations_started", "Resharding operations started", m.operationsStarted),
    ("resharding_operations_finished", "Resharding operations finished", m.operationsFinished),
    ("resharding_operations_aborted", "Resharding operations aborted", m.operationsAborted),
    ("resharding_operations_force_aborted",
      "Resharding operations aborted by topology changes or transfer failures",
      m.operationsForceAborted),
    ("shard_transfers_started", "Shard transfers started", m.transfersStarted),
    ("shard_transfers_finished", "Shard transfers finished", m.transfersFinished),
    ("shard_transfers_failed", "Shard transfers failed", m.transfersFailed),
    ("shard_transfers_cancelled", "Shard transfers cancelled", m.transfersCancelled),
    ("shard_transfer_retries", "Shard transfer step retries", m.transferRetries),
    ("shard_transfer_points", "Points applied by shard transfers", m.pointsTransferred),
    ("resharding_rejected_requests", "Rejected resharding control requests", m.rejectedRequests),
    ("shard_transfer_rejected_reports", "Transfer reports for transfers no longer scheduled",
      m.rejectedReports)]

def gauges (m : Metrics) : List (String × String × Gauge) :=
  [("resharding_active_operations", "Live resharding operations", m.activeOperations),
    ("shard_transfers_active", "Running shard transfer tasks", m.activeTransfers)]

def header (name help kind : String) : String :=
  s!"# HELP {name} {help}\n# TYPE {name} {kind}\n"

def sample (name value : String) : String := s!"{name} {value}\n"

def bucketSample (name bound : String) (count : UInt64) : String :=
  name ++ "_bucket\x7ble=\"" ++ bound ++ "\"\x7d " ++ toString count ++ "\n"

def histogramText (name help : String) (h : Histogram) : String :=
  header name help "histogram" ++
    String.join (h.buckets.map (fun b => bucketSample name (Decimal.text b.bound.value) b.count)) ++
    bucketSample name "+Inf" h.count ++
    sample (name ++ "_sum") (Decimal.text h.sum) ++
    sample (name ++ "_count") (toString h.count)

def exposition (m : Metrics) : String :=
  String.join (m.counters.map (fun c => header c.1 c.2.1 "counter" ++ sample c.1 (toString c.2.2))) ++
    String.join (m.gauges.map (fun g => header g.1 g.2.1 "gauge" ++ sample g.1 (toString g.2.2))) ++
    histogramText "shard_transfer_duration_seconds" "Shard transfer duration" m.durations

end ShardCluster.Metrics
