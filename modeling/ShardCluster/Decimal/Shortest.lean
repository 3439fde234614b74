/-! The shortest decimal that reads back as a given binary floating-point number, written out in
full. All arithmetic is exact. -/
namespace ShardCluster.Decimal

/-- The number `mantissa * 2 ^ exponent`, and whether the gap below it is half the gap above. -/
structure Binary where
  mantissa : Nat
  exponent : Int
  narrowBelow : Bool
  deriving DecidableEq, Repr

/-- A finite number without its sign, from the bits of the 64-bit format. -/
def Binary.ofBits (bits : UInt64) : Binary :=
  let fraction : Nat := bits.toNat % 0x10000000000000
  let scale : Nat := bits.toNat / 0x10000000000000 % 2048
  if scale = 0 then ⟨fraction, -1074, false⟩
  else ⟨0x10000000000000 + fraction, (scale : Int) - 1075, fraction == 0 && 1 < scale⟩

/-- A positive fraction and the ends of the interval that rounds to it, all over `den`. -/
structure Interval where
  low : Nat
  value : Nat
  high : Nat
  den : Nat
  closed : Bool
  deriving DecidableEq, Repr

def Binary.interval (b : Binary) : Interval :=
  let up := 1 <<< (b.exponent - 2).toNat
  { low := (4 * b.mantissa - if b.narrowBelow then 1 else 2) * up
    value := 4 * b.mantissa * up
    high := (4 * b.mantissa + 2) * up
    den := 1 <<< (2 - b.exponent).toNat
    closed := b.mantissa % 2 == 0 }

/-- The decimal `digits * 10 ^ power`. -/
structure Digits where
  digits : Nat
  power : Int
  deriving DecidableEq, Repr

def tenTo (n : Nat) : Nat := Nat.pow 10 n

/-- Whether a decimal lies in an interval. -/
def Interval.holds (i : Interval) (d : Digits) : Bool :=
  let x := d.digits * tenTo d.power.toNat * i.den
  let scale := tenTo (-d.power).toNat
  if i.closed then i.low * scale ≤ x && x ≤ i.high * scale
  else i.low * scale < x && x < i.high * scale

/-- How many powers of ten a fraction below one is short of it. -/
def shortfall (num den : Nat) : Nat → Nat → Nat
  | 0, j => j
  | fuel + 1, j => if den ≤ num * tenTo j then j else shortfall num den fuel (j + 1)

/-- The power of ten of the leading digit. -/
def Interval.leading (i : Interval) : Int :=
  if i.den ≤ i.value then ((toString (i.value / i.den)).length : Int) - 1
  else -(shortfall i.value i.den 400 1 : Int)

/-- The two neighbours of the value among the decimals that end at the given power of ten. -/
def Interval.neighbours (i : Interval) (power : Int) : Digits × Digits :=
  let below := i.value * tenTo (-power).toNat / (i.den * tenTo power.toNat)
  (⟨below, power⟩, ⟨below + 1, power⟩)

/-- Whether the upper neighbour is at least as near as the lower one. -/
def Interval.upperNearer (i : Interval) (power : Int) : Bool :=
  let unit := i.den * tenTo power.toNat
  unit ≤ 2 * (i.value * tenTo (-power).toNat % unit)

/-- Of the neighbours in the interval, the nearer one; the upper one in a tie. -/
def Interval.pick? (i : Interval) (power : Int) : Option Digits :=
  let (below, above) := i.neighbours power
  match i.holds below && below.digits != 0, i.holds above with
  | true, true => some (if i.upperNearer power then above else below)
  | true, false => some below
  | false, true => some above
  | false, false => none

/-- Try grids of more and more digits. -/
def Interval.search (i : Interval) : Nat → Int → Digits
  | 0, power => (i.neighbours power).1
  | fuel + 1, power =>
    match i.pick? power with
    | some d => d
    | none => i.search fuel (power - 1)

def shortest (b : Binary) : Digits :=
  let i := b.interval
  i.search 17 i.leading

def zeros (n : Nat) : List Char := List.replicate n '0'

def trim (cs : List Char) : List Char := (cs.reverse.dropWhile (· == '0')).reverse

/-- Positional notation without an exponent. -/
def positional (d : Digits) : String :=
  let cs := (toString d.digits).toList
  let point := (cs.length : Int) + d.power
  let cs := trim cs
  if point ≤ 0 then String.ofList ('0' :: '.' :: zeros (-point).toNat ++ cs)
  else if cs.length ≤ point.toNat then String.ofList (cs ++ zeros (point.toNat - cs.length))
  else String.ofList (cs.take point.toNat ++ '.' :: cs.drop point.toNat)

/-- The text of a floating-point number. -/
def text (x : Float) : String :=
  if x.isNaN then "NaN"
  else
    let bits := x.toBits
    let sign := if bits < 0x8000000000000000 then "" else "-"
    let magnitude :=
      if x.isInf then "inf"
      else
        let b := Binary.ofBits bits
        if b.mantissa = 0 then "0" else positional (shortest b)
    sign ++ magnitude

end ShardCluster.Decimal
