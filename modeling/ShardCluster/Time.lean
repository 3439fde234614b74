/-! Lengths of time and instants, exact to the nanosecond. -/
namespace ShardCluster

structure Duration where
  nanos : Nat
  deriving DecidableEq, Repr, Inhabited

namespace Duration

def perSecond : Nat := 1000000000

def ofParts (seconds nanos : Nat) : Duration := ⟨seconds * perSecond + nanos⟩
def ofMillis (n : Nat) : Duration := ⟨n * 1000000⟩

/-- Whole seconds, and the nanoseconds beyond them. -/
def parts (d : Duration) : Nat × Nat := (d.nanos / perSecond, d.nanos % perSecond)

end Duration

/-- An instant, in seconds since 1970 and nanoseconds into that second. -/
structure Timestamp where
  seconds : Int64
  nanos : Nat
  nanos_lt : nanos < Duration.perSecond
  deriving DecidableEq, Repr

namespace Timestamp

def epoch : Timestamp := ⟨0, 0, by decide⟩

instance : Inhabited Timestamp := ⟨epoch⟩

/-- Surplus nanoseconds carry into the seconds. -/
def ofParts (seconds : Int) (nanos : Nat) : Timestamp :=
  ⟨Int64.ofInt (seconds + nanos / Duration.perSecond), nanos % Duration.perSecond,
    Nat.mod_lt _ (by decide)⟩

end Timestamp
end ShardCluster
