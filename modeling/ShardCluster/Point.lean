import ShardCluster.Text.Hex
/-! Points: an id, which decides the shard, and an opaque payload. -/
namespace ShardCluster
open Std

/-- A number, or a 128-bit id given by its upper and lower half. Numbers come first. -/
inductive PointId where
  | num (n : UInt64)
  | uuid (high low : UInt64)
  deriving DecidableEq, Repr, Inhabited

namespace PointId

def rank : PointId → UInt8
  | num _ => 0
  | uuid .. => 1

def upper : PointId → UInt64
  | num n => n
  | uuid h _ => h

def lower : PointId → UInt64
  | num _ => 0
  | uuid _ l => l

instance : Ord PointId where
  compare := compareLex (compareOn rank) (compareLex (compareOn upper) (compareOn lower))

instance : TransOrd PointId :=
  inferInstanceAs (TransCmp (compareLex (compareOn rank) (compareLex (compareOn upper) (compareOn lower))))

theorem ext_parts {a b : PointId} (hr : a.rank = b.rank) (hu : a.upper = b.upper)
    (hl : a.lower = b.lower) : a = b := by
  cases a <;> cases b <;> simp_all [rank, upper, lower]

instance : LawfulEqOrd PointId where
  compare_self := ReflCmp.compare_self
  eq_of_compare {a b} h := by
    obtain ⟨hr, h⟩ := Ordering.then_eq_eq.1 h
    obtain ⟨hu, hl⟩ := Ordering.then_eq_eq.1 h
    exact ext_parts (LawfulEqOrd.eq_of_compare hr) (LawfulEqOrd.eq_of_compare hu)
      (LawfulEqOrd.eq_of_compare hl)

/-- The bytes that are hashed to route the point. -/
def routingBytes : PointId → Bytes
  | num n => Bytes.little64 n
  | uuid h l => Bytes.big64 h ++ Bytes.big64 l

/-- Groups of 8, 4, 4, 4 and 12 hexadecimal digits. -/
def hyphenated (cs : List Char) : List Char :=
  cs.take 8 ++ '-' :: (cs.drop 8).take 4 ++ '-' :: (cs.drop 12).take 4 ++
    '-' :: (cs.drop 16).take 4 ++ '-' :: cs.drop 20

def text : PointId → String
  | num n => toString n
  | uuid h l => String.ofList (hyphenated (Hex.chars (Bytes.big64 h ++ Bytes.big64 l)))

/-- Read a hyphenated 128-bit id. -/
def ofUuid? (s : String) : Option PointId := do
  let bytes ← Hex.ofChars? (s.toList.filter (· != '-'))
  if bytes.length = 16 then
    some (uuid (Bytes.bigWord64 (bytes.take 8)) (Bytes.bigWord64 (bytes.drop 8)))
  else none

end PointId

structure Point where
  id : PointId
  payload : Bytes
  deriving DecidableEq, Repr, Inhabited

end ShardCluster
