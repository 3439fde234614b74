import ShardCluster.Text.Utf8
import ShardCluster.SortedMap.Basic
import ShardCluster.Time
/-! The binary layout of values: words in little-endian order at full width, a length before every
text, list and map, and a number before every alternative. -/
namespace ShardCluster.Wire
open Std

/-- Why bytes cannot be read as a value, or a value has no bytes. -/
inductive Fault where
  | wordCutShort
  | textCutShort
  | alternative (found : UInt32) (count : Nat)
  | flag (found : UInt8)
  | presence (found : UInt8)
  | malformedText (why : Utf8.Malformed)
  | carryTooLarge
  | instantTooLate
  | instantTooEarly
  deriving DecidableEq, Repr, Inhabited

def Fault.message : Fault → String
  | wordCutShort => "io error: unexpected end of file"
  | textCutShort => "io error: "
  | alternative found count =>
    "invalid value: integer `" ++ toString found ++ "`, expected variant index 0 <= i < " ++ toString count
  | flag found => s!"invalid u8 while decoding bool, expected 0 or 1, found {found}"
  | presence found => s!"tag for enum is not valid, found {found}"
  | malformedText why => s!"string is not valid utf8: {why.message}"
  | carryTooLarge => "overflow deserializing SystemTime epoch offset"
  | instantTooLate => "overflow deserializing SystemTime"
  | instantTooEarly => "SystemTime must be later than UNIX_EPOCH"

/-- Takes a value from the front of the bytes. -/
abbrev Reader := StateT Bytes (Except Fault)

/-- The next `n` bytes, or the given fault if there are fewer. -/
def bytes (n : Nat) (short : Fault) : Reader Bytes := fun input =>
  if input.length < n then .error short else .ok (input.take n, input.drop n)

def byte : Reader UInt8 := fun
  | [] => .error .wordCutShort
  | b :: rest => .ok (b, rest)

def readWord32 : Reader UInt32 := Bytes.littleWord32 <$> bytes 4 .wordCutShort
def readWord64 : Reader UInt64 := Bytes.littleWord64 <$> bytes 8 .wordCutShort

def writeSize (n : Nat) : Bytes := Bytes.little64 (UInt64.ofNat n)
def readSize : Reader Nat := UInt64.toNat <$> readWord64

def writeFlag (b : Bool) : Bytes := [if b then 1 else 0]

def readFlag : Reader Bool := do
  match ← byte with
  | 0 => return false
  | 1 => return true
  | found => throw (.flag found)

def writeText (s : String) : Bytes :=
  let content := Utf8.encode s
  writeSize content.length ++ content

def readText : Reader String := do
  let size ← readSize
  match Utf8.decode (← bytes size .textCutShort) with
  | .ok s => return s
  | .error why => throw (.malformedText why)

def writeOption {α : Type} (write : α → Bytes) : Option α → Bytes
  | none => [0]
  | some a => 1 :: write a

def readOption {α : Type} (read : Reader α) : Reader (Option α) := do
  match ← byte with
  | 0 => return none
  | 1 => return some (← read)
  | found => throw (.presence found)

def writeList {α : Type} (write : α → Bytes) (l : List α) : Bytes :=
  writeSize l.length ++ l.flatMap write

def readMany {α : Type} (read : Reader α) : Nat → Reader (List α)
  | 0 => return []
  | n + 1 => do
    let a ← read
    return a :: (← readMany read n)

def readList {α : Type} (read : Reader α) : Reader (List α) := do
  readMany read (← readSize)

def writePair {α β : Type} (writeFst : α → Bytes) (writeSnd : β → Bytes) (p : α × β) : Bytes :=
  writeFst p.1 ++ writeSnd p.2

def readPair {α β : Type} (readFst : Reader α) (readSnd : Reader β) : Reader (α × β) := do
  let a ← readFst
  return (a, ← readSnd)

def writeMap {κ α : Type} [Ord κ] (writeKey : κ → Bytes) (write : α → Bytes)
    (m : SortedMap κ α) : Bytes :=
  writeList (writePair writeKey write) m.entries

/-- A later entry replaces an earlier one with the same key. -/
def readMap {κ α : Type} [Ord κ] [TransOrd κ] (readKey : Reader κ) (read : Reader α) :
    Reader (SortedMap κ α) :=
  SortedMap.ofList <$> readList (readPair readKey read)

/-- The number of an alternative that has no content. -/
def writeCase {α : Type} [DecidableEq α] (cases : List α) (a : α) : Bytes :=
  Bytes.little32 (UInt32.ofNat (cases.idxOf a))

def readCase {α : Type} (cases : List α) : Reader α := do
  let found ← readWord32
  match cases[found.toNat]? with
  | some a => return a
  | none => throw (.alternative found cases.length)

/-- Seconds and nanoseconds since 1970; earlier instants have no bytes. -/
def writeInstant (t : Timestamp) : Except Fault Bytes :=
  if t.seconds < 0 then .error .instantTooEarly
  else .ok (Bytes.little64 t.seconds.toUInt64 ++ Bytes.little32 (UInt32.ofNat t.nanos))

/-- Surplus nanoseconds carry into the seconds, which must stay in range. -/
def readInstant : Reader Timestamp := do
  let seconds ← readWord64
  let nanos ← readWord32
  let total := seconds.toNat + nanos.toNat / Duration.perSecond
  if UInt64.size ≤ total then throw .carryTooLarge
  if UInt64.size / 2 ≤ total then throw .instantTooLate
  return .ofParts seconds.toNat nanos.toNat

end ShardCluster.Wire
