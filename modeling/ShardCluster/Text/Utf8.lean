import ShardCluster.Bytes
/-! UTF-8 text, with the place and length of the first malformed sequence. -/
namespace ShardCluster.Utf8

/-- `length` bytes that no text contains, or, without a length, a sequence that the end cuts short. -/
structure Malformed where
  start : Nat
  length : Option Nat
  deriving DecidableEq, Repr, Inhabited

def Malformed.message (m : Malformed) : String :=
  match m.length with
  | some n => s!"invalid utf-8 sequence of {n} bytes from index {m.start}"
  | none => s!"incomplete utf-8 byte sequence from index {m.start}"

def encode (s : String) : Bytes := Bytes.ofText s

def continues (b : UInt8) : Bool := 0x80 ≤ b && b ≤ 0xBF

/-- The second bytes that may follow a first byte, as an interval: overlong forms, surrogates and
numbers beyond the last character are left out. -/
def secondRange (first : UInt8) : UInt8 × UInt8 :=
  if first = 0xE0 then (0xA0, 0xBF)
  else if first = 0xED then (0x80, 0x9F)
  else if first = 0xF0 then (0x90, 0xBF)
  else if first = 0xF4 then (0x80, 0x8F)
  else (0x80, 0xBF)

/-- How many bytes a character with this first byte takes; none starts with other bytes. -/
def width? (first : UInt8) : Option Nat :=
  if first < 0x80 then some 1
  else if first < 0xC2 then none
  else if first < 0xE0 then some 2
  else if first < 0xF0 then some 3
  else if first < 0xF5 then some 4
  else none

/-- Check `missing` more bytes, of which the first is to lie in the interval. The result is the
number of good ones if a bad one follows them, or `none` in place of it at the end of the input. -/
def checkRest (low high : UInt8) : Nat → Nat → Bytes → Except (Option Nat) Unit
  | 0, _, _ => .ok ()
  | _ + 1, _, [] => .error none
  | missing + 1, good, b :: rest =>
    if low ≤ b && b ≤ high then checkRest 0x80 0xBF missing (good + 1) rest
    else .error (some good)

/-- The low bits of a byte, of which a continuation carries six. -/
def payload (b : UInt8) (bound : Nat) : Nat := b.toNat % bound

/-- The character that a checked sequence spells. -/
def charOf (first : UInt8) (rest : Bytes) : Char :=
  Char.ofNat (rest.foldl (fun n b => n * 64 + payload b 64)
    (match rest.length with
      | 0 => first.toNat
      | 1 => payload first 32
      | 2 => payload first 16
      | _ => payload first 8))

/-- Read characters from a byte string, of which `index` bytes have been read before. -/
def decodeChars : Nat → Nat → Bytes → Except Malformed (List Char)
  | _, _, [] => .ok []
  | 0, _, _ :: _ => .ok []
  | fuel + 1, index, first :: rest =>
    match width? first with
    | none => .error ⟨index, some 1⟩
    | some width =>
      match checkRest (secondRange first).1 (secondRange first).2 (width - 1) 1 rest with
      | .error length => .error ⟨index, length⟩
      | .ok () => do
        let more ← decodeChars fuel (index + width) (rest.drop (width - 1))
        return charOf first (rest.take (width - 1)) :: more

def decode (bytes : Bytes) : Except Malformed String := do
  return String.ofList (← decodeChars bytes.length 0 bytes)

end ShardCluster.Utf8
