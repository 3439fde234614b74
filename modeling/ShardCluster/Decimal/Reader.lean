/-! Decimal text read as a number of the 64-bit format, with the words for infinity and for no
number. What is read is a word, so that a sign is kept wherever the format has room for one. -/
namespace ShardCluster.Decimal

def digitsOf (cs : List Char) : Option Nat :=
  if cs.all Char.isDigit then
    some (cs.foldl (fun n c => 10 * n + (c.toNat - 48)) 0)
  else none

def integerOf : List Char → Option Int
  | '-' :: cs => if cs.isEmpty then none else (digitsOf cs).map (fun n => -(n : Int))
  | '+' :: cs => if cs.isEmpty then none else (digitsOf cs).map Int.ofNat
  | cs => if cs.isEmpty then none else (digitsOf cs).map Int.ofNat

/-- The word of infinity. -/
def infinity : UInt64 := 0x7FF0000000000000

/-- The word nearest to `digits * 10 ^ exponent`. A number whose leading digit is far above or far
below the range of the format is infinite, or zero. -/
def nearest (digits : Nat) (exponent : Int) : UInt64 :=
  let leading := ((toString digits).length : Int) + exponent
  if digits = 0 ∨ leading < -400 then 0
  else if 400 < leading then infinity
  else (Float.ofScientific digits (decide (exponent < 0)) exponent.natAbs).toBits

/-- Digits around an optional point, and an optional power of ten. -/
def unsigned (cs : List Char) : Option UInt64 := do
  let mantissa := cs.takeWhile (fun c => c != 'e' && c != 'E')
  let power ← match cs.drop mantissa.length with
    | [] => some 0
    | _ :: p => integerOf p
  let whole := mantissa.takeWhile (· != '.')
  let part := (mantissa.drop whole.length).drop 1
  if whole.isEmpty && part.isEmpty then none
  else
    let digits ← digitsOf (whole ++ part)
    some (nearest digits (power - part.length))

def magnitude (cs : List Char) : Option UInt64 :=
  match String.ofList (cs.map Char.toLower) with
  | "inf" | "infinity" => some infinity
  | "nan" => some 0x7FF8000000000000
  | _ => unsigned cs

/-- A minus sets the first bit of the word. -/
def read? (s : String) : Option UInt64 :=
  match s.toList with
  | '-' :: cs => (magnitude cs).map (· ||| 0x8000000000000000)
  | '+' :: cs => magnitude cs
  | cs => magnitude cs

end ShardCluster.Decimal
