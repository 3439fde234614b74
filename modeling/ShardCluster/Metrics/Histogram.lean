import ShardCluster.Metrics.Counter
import ShardCluster.Time
/-! Counts of observed durations up to given bounds, in seconds. -/
namespace ShardCluster

/-- A number as a word of the 64-bit format, in which what is not a number has a sign as well. -/
structure Bound where
  bits : UInt64
  deriving DecidableEq, Repr, Inhabited

namespace Bound

def ofFloat (x : Float) : Bound := ⟨x.toBits⟩

def value (b : Bound) : Float := Float.ofBits b.bits

/-- Place in the total order of the format: negative words come in reverse, so a negative zero
comes before zero, and what is not a number comes last, or first if its sign is set. -/
def rank (b : Bound) : UInt64 :=
  if b.bits < 0x8000000000000000 then b.bits + 0x8000000000000000
  else 0xFFFFFFFFFFFFFFFF - b.bits

end Bound

structure Bucket where
  bound : Bound
  count : Counter := 0
  deriving Inhabited

structure Histogram where
  /-- In ascending order of the bounds. -/
  buckets : List Bucket
  /-- Total of the observations, in whole microseconds. -/
  micros : UInt64 := 0
  count : Counter := 0
  deriving Inhabited

namespace Histogram

def ofBounds (bounds : List Bound) : Histogram :=
  { buckets := (bounds.mergeSort (fun a b => a.rank ≤ b.rank)).map (fun b => { bound := b }) }

def seconds (d : Duration) : Float :=
  (UInt64.ofNat d.parts.1).toFloat + (UInt64.ofNat d.parts.2).toFloat / 1000000000.0

def observe (h : Histogram) (d : Duration) : Histogram :=
  let s := seconds d
  { buckets := h.buckets.map (fun b =>
      if s ≤ b.bound.value then { b with count := b.count.increment } else b)
    micros := h.micros + UInt64.ofNat (d.nanos / 1000)
    count := h.count.increment }

def sum (h : Histogram) : Float := h.micros.toFloat / 1000000.0

def mean (h : Histogram) : Float := if h.count = 0 then 0.0 else h.sum / h.count.toFloat

end Histogram
end ShardCluster
