/-!
# Texts

Rows of text are bytes that are read as UTF-8 on demand, and floating-point numbers are written as
decimals.
-/

namespace Columnar

/-! ## Where UTF-8 goes wrong

Text columns hold raw bytes, and a row is read as text only when asked for. `decode` reads it and
names the **first fault** of a byte sequence that is not UTF-8: the start of the character it lies
in, and how many bytes of that character were still acceptable. A sequence that merely ends inside
a character has no such count.
-/

/-- The first fault of a byte sequence: the character that starts at `index` is either cut short by
the end (`length` absent), or wrong after `length` acceptable bytes. -/
structure InvalidUtf8 where
  index : Nat
  length : Option Nat
  deriving DecidableEq

namespace InvalidUtf8

/-- The wording of the fault. -/
def message (e : InvalidUtf8) : String :=
  match e.length with
  | some n => s!"invalid utf-8 sequence of {n} bytes from index {e.index}"
  | none => s!"incomplete utf-8 byte sequence from index {e.index}"

end InvalidUtf8

namespace Utf8

/-- Any continuation byte. -/
def tail : UInt8 × UInt8 := (0x80, 0xBF)

/-- The ranges of the bytes that must follow a first byte, or none if no character starts so. The
narrowed ranges shut out overlong forms, surrogates and code points past the last plane. -/
def following (first : UInt8) : Option (List (UInt8 × UInt8)) :=
  if first ≤ 0x7F then some []
  else if 0xC2 ≤ first && first ≤ 0xDF then some [tail]
  else if first == 0xE0 then some [(0xA0, 0xBF), tail]
  else if first == 0xED then some [(0x80, 0x9F), tail]
  else if 0xE1 ≤ first && first ≤ 0xEF then some [tail, tail]
  else if first == 0xF0 then some [(0x90, 0xBF), tail, tail]
  else if 0xF1 ≤ first && first ≤ 0xF3 then some [tail, tail, tail]
  else if first == 0xF4 then some [(0x80, 0x8F), tail, tail]
  else none

/-- Scan the bytes from index `position` on. The current character started at `start` and still owes
bytes in the given ranges. -/
def scan (position start : Nat) (owed : List (UInt8 × UInt8)) : List UInt8 → Option InvalidUtf8
  | [] => if owed.isEmpty then none else some ⟨start, none⟩
  | b :: rest =>
    match owed with
    | [] =>
      match following b with
      | some next => scan (position + 1) position next rest
      | none => some ⟨position, some 1⟩
    | (low, high) :: later =>
      if low ≤ b && b ≤ high then scan (position + 1) start later rest
      else some ⟨start, some (position - start)⟩

/-- The first fault of a byte sequence, absent for UTF-8. -/
def firstFault (bytes : List UInt8) : Option InvalidUtf8 := scan 0 0 [] bytes

/-- The bytes of a text. -/
def encode (s : String) : List UInt8 := s.toUTF8.data.toList

/-- The text that the bytes spell, or the first fault. -/
def decode (bytes : List UInt8) : Except InvalidUtf8 String :=
  match String.fromUTF8? ⟨bytes.toArray⟩ with
  | some s => .ok s
  | none => .error ((firstFault bytes).getD ⟨0, none⟩)

/-- Every text reads back from its bytes. -/
theorem decode_encode (s : String) : decode (encode s) = .ok s := by
  have h : String.fromUTF8? ⟨s.toByteArray.data⟩ = some s := dif_pos s.isValidUTF8
  simp only [decode, encode, String.toUTF8, Array.toArray_toList, h]

end Utf8

/-! ## Shortest decimals

A binary floating-point number stands for every real number that rounds to it. Its **shortest
decimal** has the fewest digits that lie among these reals, and of those the nearest to the number
itself; a tie goes to the larger. All is exact arithmetic on natural numbers: a positive number is a
fraction, and the reals around it lie between two fractions of the same denominator.
-/

/-- A positive number `value / scale` and the reals around it that round to it, from `low / scale`
to `high / scale`, with the ends or without. -/
structure Rounding where
  low : Nat
  value : Nat
  high : Nat
  scale : Nat
  closed : Bool

/-- The decimal `digits * 10 ^ exponent`. -/
structure Decimal where
  digits : Nat
  exponent : Int
  deriving DecidableEq

namespace Rounding

/-- A numerator rounds to the number. -/
def holds (r : Rounding) (numerator : Nat) : Bool :=
  if r.closed then r.low ≤ numerator && numerator ≤ r.high
  else r.low < numerator && numerator < r.high

/-- The same reals, counted in units of `10 ^ e`. -/
def inUnits (r : Rounding) (e : Int) : Rounding :=
  let up := Nat.pow 10 (-e).toNat
  { r with
    low := r.low * up, value := r.value * up, high := r.high * up
    scale := r.scale * Nat.pow 10 e.toNat }

/-- The multiple of `10 ^ e` that rounds to the number and is nearest to it, if there is one. -/
def nearest? (r : Rounding) (e : Int) : Option Nat :=
  let r := r.inUnits e
  let below := r.value / r.scale
  let above := below + 1
  let rest := r.value % r.scale
  match r.holds (below * r.scale), r.holds (above * r.scale) with
  | true, true => some (if 2 * rest < r.scale then below else above)
  | true, false => some below
  | false, true => some above
  | false, false => none

/-- The exponent `k` with `10 ^ (k - 1) ≤ value / scale < 10 ^ k`. -/
def magnitude (r : Rounding) : Int :=
  if r.scale ≤ r.value then (Nat.toDigits 10 (r.value / r.scale)).length
  else 1 - ((Nat.toDigits 10 ((r.scale - 1) / r.value)).length : Int)

/-- The decimal with the fewest digits, trying `count` of them first and then up to `fuel - 1` more.
-/
def shortestFrom (r : Rounding) (magnitude : Int) : Nat → Nat → Decimal
  | 0, count => ⟨0, magnitude - count⟩
  | fuel + 1, count =>
    match r.nearest? (magnitude - count) with
    | some digits =>
      -- Rounding up may reach the next power of ten, which has one digit.
      if digits = Nat.pow 10 count then ⟨1, magnitude⟩ else ⟨digits, magnitude - count⟩
    | none => shortestFrom r magnitude fuel (count + 1)

/-- The shortest decimal. Seventeen digits are enough for every binary number of 64 bits. -/
def shortest (r : Rounding) : Decimal := r.shortestFrom r.magnitude 17 1

end Rounding

namespace Decimal

/-- The decimal in positional notation, without a point if it is whole. -/
def positional (d : Decimal) : String :=
  let digits := Nat.toDigits 10 d.digits
  if 0 ≤ d.exponent then String.ofList (digits ++ List.replicate d.exponent.toNat '0')
  else
    let places := (-d.exponent).toNat
    let padded := List.replicate (places + 1 - digits.length) '0' ++ digits
    let whole := padded.take (padded.length - places)
    let fraction := padded.drop (padded.length - places)
    String.ofList (whole ++ '.' :: fraction)

end Decimal

/-! ## Binary floating-point numbers

A floating-point slot is a bit pattern: a sign, a biased exponent and a fraction. Columns only copy
patterns. This module says when two patterns are the **same number**, which is not when they are the
same pattern, and how a number is **written**: the shortest decimal that reads back, in positional
notation whatever its size.
-/

/-- A binary format: the bits of the exponent and of the fraction, below the sign. -/
structure BinaryFormat where
  exponentBits : Nat
  fractionBits : Nat

namespace BinaryFormat

/-- The format of 32 bits. -/
def single : BinaryFormat := ⟨8, 23⟩

/-- The format of 64 bits. -/
def double : BinaryFormat := ⟨11, 52⟩

variable (f : BinaryFormat)

/-- The sign bit is set. -/
def negative (pattern : Nat) : Bool := pattern.testBit (f.exponentBits + f.fractionBits)

/-- The exponent field. -/
def exponentField (pattern : Nat) : Nat := (pattern >>> f.fractionBits) % (1 <<< f.exponentBits)

/-- The fraction field. -/
def fractionField (pattern : Nat) : Nat := pattern % (1 <<< f.fractionBits)

/-- The exponent field of infinities and of patterns that are no number. -/
def topField : Nat := (1 <<< f.exponentBits) - 1

/-- The pattern is no number. -/
def isNaN (pattern : Nat) : Bool :=
  f.exponentField pattern == f.topField && f.fractionField pattern != 0

/-- The pattern is a zero, of either sign. -/
def isZero (pattern : Nat) : Bool := pattern % (1 <<< (f.exponentBits + f.fractionBits)) == 0

/-- Two patterns are the same number: both are numbers, and they are one pattern or both zero. -/
def sameNumber (a b : Nat) : Bool :=
  !f.isNaN a && !f.isNaN b && (a == b || f.isZero a && f.isZero b)

/-- A finite number other than zero, without its sign, and the reals that round to it. The numbers
below a power of two lie half as far apart as those above it. All four times the unit of the last
place, so that halfway points are whole. -/
def rounding (pattern : Nat) : Rounding :=
  let field := f.exponentField pattern
  let fraction := f.fractionField pattern
  let significand := if field = 0 then fraction else fraction + (1 <<< f.fractionBits)
  let down := if fraction = 0 ∧ 1 < field then 1 else 2
  let bias := (1 <<< (f.exponentBits - 1)) - 1 + f.fractionBits
  let exponent : Int := max field 1 - bias - 2
  let up := 1 <<< exponent.toNat
  { low := (4 * significand - down) * up
    value := 4 * significand * up
    high := (4 * significand + 2) * up
    scale := 1 <<< (-exponent).toNat
    closed := significand % 2 == 0 }

/-- The number of a pattern, written out. -/
def render (pattern : Nat) : String :=
  if f.isNaN pattern then "NaN"
  else
    let size :=
      if f.isZero pattern then "0"
      else if f.exponentField pattern = f.topField then "inf"
      else (f.rounding pattern).shortest.positional
    if f.negative pattern then "-" ++ size else size

end BinaryFormat

end Columnar
