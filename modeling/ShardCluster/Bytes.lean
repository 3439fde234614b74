/-! Byte strings and the two byte orders of fixed-width words. -/
namespace ShardCluster

abbrev Bytes := List UInt8

namespace Bytes

def little32 (n : UInt32) : Bytes :=
  [n.toUInt8, (n >>> 8).toUInt8, (n >>> 16).toUInt8, (n >>> 24).toUInt8]

def little64 (n : UInt64) : Bytes :=
  [n.toUInt8, (n >>> 8).toUInt8, (n >>> 16).toUInt8, (n >>> 24).toUInt8,
    (n >>> 32).toUInt8, (n >>> 40).toUInt8, (n >>> 48).toUInt8, (n >>> 56).toUInt8]

def big64 (n : UInt64) : Bytes := (little64 n).reverse

/-- The number with these base-256 digits, least significant first. -/
def littleNat : Bytes → Nat
  | [] => 0
  | b :: rest => b.toNat + 256 * littleNat rest

def littleWord64 (b : Bytes) : UInt64 := UInt64.ofNat (littleNat b)
def littleWord32 (b : Bytes) : UInt32 := UInt32.ofNat (littleNat b)
def bigWord64 (b : Bytes) : UInt64 := littleWord64 b.reverse

def ofText (s : String) : Bytes := s.toList.flatMap String.utf8EncodeChar

end Bytes
end ShardCluster
