import ShardCluster.Bytes
/-! Lowercase hexadecimal text of byte strings. -/
namespace ShardCluster.Hex

def digit (n : Nat) : Char :=
  if n < 10 then Char.ofNat (48 + n) else Char.ofNat (87 + n)

def value? (c : Char) : Option Nat :=
  if '0' ≤ c ∧ c ≤ '9' then some (c.toNat - 48)
  else if 'a' ≤ c ∧ c ≤ 'f' then some (c.toNat - 87)
  else if 'A' ≤ c ∧ c ≤ 'F' then some (c.toNat - 55)
  else none

def chars (bs : Bytes) : List Char :=
  bs.flatMap (fun b => [digit (b.toNat / 16), digit (b.toNat % 16)])

def encode (bs : Bytes) : String := String.ofList (chars bs)

def ofChars? : List Char → Option Bytes
  | [] => some []
  | [_] => none
  | a :: b :: rest => do
    let hi ← value? a
    let lo ← value? b
    let tail ← ofChars? rest
    return UInt8.ofNat (16 * hi + lo) :: tail

def decode? (s : String) : Option Bytes := ofChars? s.toList

end ShardCluster.Hex
