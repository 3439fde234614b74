import ShardCluster.Wire.Entry
/-! The log of committed entries, kept as bytes. Entries are counted from one. -/
namespace ShardCluster

structure Log where
  records : List Bytes := []
  /-- How many of the next appends will find the log out of service. -/
  outage : Nat := 0
  deriving DecidableEq, Inhabited

namespace Log

def lastIndex (l : Log) : Nat := l.records.length

/-- Record an entry; the outage counts down also when it is the cause of the refusal. -/
def append (l : Log) (e : Entry) : Log × Except Error Nat :=
  match l.outage with
  | n + 1 => ({ l with outage := n }, .error (.internal (.other "log unavailable")))
  | 0 =>
    match e.toBytes with
    | .ok bytes => ({ l with records := l.records ++ [bytes] }, .ok (l.records.length + 1))
    | .error err => (l, .error err)

/-- A log that holds the entries. -/
def ofEntries (entries : List Entry) : Except Error Log := do
  return { records := ← entries.mapM Entry.toBytes }

def entry (l : Log) (index : UInt64) : Except Error Entry :=
  if index = 0 then .error (.internal .indexZero)
  else match l.records[index.toNat - 1]? with
    | some bytes => Entry.ofBytes bytes
    | none => .error (.internal (.indexMissing index))

def entries (l : Log) : Except Error (List Entry) := l.records.mapM Entry.ofBytes

end Log
end ShardCluster
