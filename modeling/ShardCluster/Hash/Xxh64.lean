import ShardCluster.Bytes
/-! The 64-bit xxHash of a byte string, with seed zero. -/
namespace ShardCluster.Xxh64

def p1 : UInt64 := 0x9E3779B185EBCA87
def p2 : UInt64 := 0xC2B2AE3D27D4EB4F
def p3 : UInt64 := 0x165667B19E3779F9
def p4 : UInt64 := 0x85EBCA77C2B2AE63
def p5 : UInt64 := 0x27D4EB2F165667C5

def rotate (x : UInt64) (r : UInt64) : UInt64 := (x <<< r) ||| (x >>> (64 - r))

def round (acc word : UInt64) : UInt64 := rotate (acc + word * p2) 31 * p1

def merge (h lane : UInt64) : UInt64 := (h ^^^ round 0 lane) * p1 + p4

/-- Whole little-endian words, and the bytes that are left. -/
def words : Bytes → List UInt64 × Bytes
  | a :: b :: c :: d :: e :: f :: g :: h :: rest =>
    let (ws, tail) := words rest
    (Bytes.littleWord64 [a, b, c, d, e, f, g, h] :: ws, tail)
  | tail => ([], tail)

structure Lanes where
  a : UInt64 := p1 + p2
  b : UInt64 := p2
  c : UInt64 := 0
  d : UInt64 := 0 - p1

/-- Feed whole groups of four words into the lanes; return the words that are left. -/
def Lanes.absorb : Lanes → List UInt64 → Lanes × List UInt64
  | l, w :: x :: y :: z :: rest =>
    absorb ⟨round l.a w, round l.b x, round l.c y, round l.d z⟩ rest
  | l, rest => (l, rest)

def Lanes.converge (l : Lanes) : UInt64 :=
  let h := rotate l.a 1 + rotate l.b 7 + rotate l.c 12 + rotate l.d 18
  merge (merge (merge (merge h l.a) l.b) l.c) l.d

def mixWord (h word : UInt64) : UInt64 := rotate (h ^^^ round 0 word) 27 * p1 + p4

def mixByte (h : UInt64) (b : UInt8) : UInt64 := rotate (h ^^^ (b.toUInt64 * p5)) 11 * p1

/-- Mix in fewer than eight bytes: four at once if there are as many, then one by one. -/
def mixTail (h : UInt64) : Bytes → UInt64
  | a :: b :: c :: d :: rest =>
    let half := Bytes.littleWord64 [a, b, c, d]
    rest.foldl mixByte (rotate (h ^^^ (half * p1)) 23 * p2 + p3)
  | rest => rest.foldl mixByte h

def avalanche (h : UInt64) : UInt64 :=
  let h := (h ^^^ (h >>> 33)) * p2
  let h := (h ^^^ (h >>> 29)) * p3
  h ^^^ (h >>> 32)

def hash (bytes : Bytes) : UInt64 :=
  let (ws, tail) := words bytes
  let (lanes, rest) := Lanes.absorb {} ws
  let start := if ws.length < 4 then p5 else lanes.converge
  avalanche (mixTail (rest.foldl mixWord (start + UInt64.ofNat bytes.length)) tail)

end ShardCluster.Xxh64
