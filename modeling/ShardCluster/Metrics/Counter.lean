/-! The numbers that a node keeps: totals, which only grow, and levels, which rise and fall. -/
namespace ShardCluster

/-- Starts again from zero past the largest word. -/
abbrev Counter := UInt64

def Counter.add (c : Counter) (n : UInt64) : Counter := c + n

def Counter.increment (c : Counter) : Counter := c.add 1

abbrev Gauge := Int

namespace Gauge

def raise (g : Gauge) : Gauge := g + 1

/-- A decrement never leaves a gauge below zero. -/
def lower (g : Gauge) : Gauge := max (g - 1) 0

end Gauge
end ShardCluster
