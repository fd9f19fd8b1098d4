import Columnar.Bits.Buffer
import Columnar.Failure

/-!
# Bitmasks

A **bitmask** is a packed row of bits: the validity of a column's rows, or the values of a boolean
column. Its buffer holds at least `len` bits, and `toList` is the row that it stands for.

The buffer may be longer than needed, and its spare bytes may hold anything: growth takes over
whatever bits they hold. A buffer of exactly `byteCount len` bytes with zeros past `len` is
**tight**, and an operation that starts a buffer of its own starts a tight one.

A **window** names `len` bits of a mask from `offset` on. Bits that it names past the buffer are
zero.
-/

namespace Columnar

open Bits

/-- A row of `len` bits, packed lowest bit first. -/
@[ext]
structure Bitmask where
  bytes : Bytes
  len : Nat
  len_le : len ≤ 8 * bytes.length
  deriving DecidableEq

/-- A window of `len` bits of a mask from `offset` on. -/
@[ext]
structure Window where
  mask : Bitmask
  offset : Nat
  len : Nat

namespace Window

/-- Bit `i` of the window, zero past the buffer. -/
def bit (w : Window) (i : Nat) : Bool := bitAt w.mask.bytes (w.offset + i)

/-- The bits of a piece of the window, at most 64, as a word. -/
def word (w : Window) (p : Piece) : Nat := readWord w.mask.bytes (w.offset + p.start) p.len

def toList (w : Window) : List Bool := (List.range w.len).map w.bit

/-- The number of set bits, a word at a time. -/
def countOnes (w : Window) : Nat :=
  (pieces wordSize w.len).foldr (fun p count => popCount (w.word p) + count) 0

def countZeros (w : Window) : Nat := w.len - w.countOnes

@[simp] theorem length_toList (w : Window) : w.toList.length = w.len := by
  simp [toList]

end Window

/-! ## Buffers -/

namespace Bits

/-- Zero bytes for `n` bits. -/
def zeros (n : Nat) : Bytes := List.replicate (byteCount n) 0

@[simp] theorem length_zeros (n : Nat) : (zeros n).length = byteCount n := by
  simp [zeros]

/-- Clear the bits past `len` in the byte that `len` ends in. -/
def clearPadding (bytes : Bytes) (len : Nat) : Bytes :=
  if len % 8 = 0 then bytes
  else bytes.modify (len / 8) fun b => b &&& UInt8.ofNat (ones (len % 8))

@[simp] theorem length_clearPadding (bytes : Bytes) (len : Nat) :
    (clearPadding bytes len).length = bytes.length := by
  unfold clearPadding
  split <;> simp

/-- Cut the buffer to the bytes of `n` bits, or pad it with zero bytes. -/
def fit (bytes : Bytes) (n : Nat) : Bytes :=
  bytes.take (byteCount n) ++ List.replicate (byteCount n - bytes.length) 0

@[simp] theorem length_fit (bytes : Bytes) (n : Nat) : (fit bytes n).length = byteCount n := by
  simp [fit]
  omega

/-- OR `n` bits into the buffer from `start` on, a word at a time: `word p` holds the bits of the
piece `p`. -/
def orWords (bytes : Bytes) (start n : Nat) (word : Piece → Nat) : Bytes :=
  (pieces wordSize n).foldl (fun acc p => orWord acc (start + p.start) (word p) p.len) bytes

@[simp] theorem length_orWords (bytes : Bytes) (start n : Nat) (word : Piece → Nat) :
    (orWords bytes start n word).length = bytes.length := by
  unfold orWords
  generalize pieces wordSize n = ps
  induction ps generalizing bytes with
  | nil => rfl
  | cons p ps ih => simp [ih]

theorem bitAt_foldl_orWord {ps : List Piece} (h : ∀ p ∈ ps, p.len ≤ wordSize) (bytes : Bytes)
    (start : Nat) (word : Piece → Nat) (i : Nat) :
    bitAt (ps.foldl (fun acc p => orWord acc (start + p.start) (word p) p.len) bytes) i =
      (bitAt bytes i || ps.any fun p =>
        decide (start + p.start ≤ i ∧ i < start + p.start + p.len ∧ i < 8 * bytes.length) &&
          (word p).testBit (i - (start + p.start))) := by
  induction ps generalizing bytes with
  | nil => simp
  | cons p ps ih =>
    rw [List.foldl_cons, ih (fun q hq => h q (.tail _ hq)), bitAt_orWord _ _ _ (h p (.head _)),
      length_orWord, List.any_cons, Bool.or_assoc]

/-- Words that spell the bits `f` set those bits from `start` on, and change no others. -/
theorem bitAt_orWords (bytes : Bytes) (start n : Nat) {word : Piece → Nat} {f : Nat → Bool}
    (hf : ∀ p ∈ pieces wordSize n, ∀ j < p.len, (word p).testBit j = f (p.start + j)) (i : Nat) :
    bitAt (orWords bytes start n word) i =
      (bitAt bytes i ||
        (decide (start ≤ i ∧ i < start + n ∧ i < 8 * bytes.length) && f (i - start))) := by
  rw [orWords, bitAt_foldl_orWord fun p hp => (piece_bounds (by decide) hp).2.1]
  congr 1
  rw [Bool.eq_iff_iff]
  simp only [List.any_eq_true, Bool.and_eq_true, decide_eq_true_eq]
  constructor
  · rintro ⟨p, hp, ⟨h1, h2, h3⟩, hb⟩
    have hlen := (piece_bounds (by decide) hp).2.2
    rw [hf p hp _ (by omega)] at hb
    exact ⟨by omega, by rwa [show p.start + (i - (start + p.start)) = i - start by omega] at hb⟩
  · rintro ⟨⟨h1, h2, h3⟩, hb⟩
    obtain ⟨p, hp, hs, ht⟩ :=
      exists_piece (by decide : 0 < wordSize) (show i - start < n by omega)
    refine ⟨p, hp, by omega, ?_⟩
    rw [hf p hp _ (by omega), show p.start + (i - (start + p.start)) = i - start by omega]
    exact hb

def setBit (bytes : Bytes) (i : Nat) (value : Bool) : Bytes :=
  bytes.modify (i / 8) fun b =>
    if value then b ||| UInt8.ofNat (1 <<< (i % 8)) else b &&& ~~~UInt8.ofNat (1 <<< (i % 8))

@[simp] theorem length_setBit (bytes : Bytes) (i : Nat) (value : Bool) :
    (setBit bytes i value).length = bytes.length := by
  simp [setBit]

/-- Up to eight bits as a byte. -/
def packByte (bits : List Bool) : UInt8 :=
  UInt8.ofNat (bits.foldr (fun b rest => b.toNat + 2 * rest) 0)

/-- OR a word into a buffer that must hold all of its bits. -/
def write (bytes : Bytes) (pos word n : Nat) : Checked Bytes := do
  Checked.require (n = 0 ∨ pos + n ≤ 8 * bytes.length) .outOfRange
  return orWord bytes pos word n

end Bits

namespace Bitmask

/-! ## Construction -/

def empty : Bitmask := ⟨[], 0, by simp⟩

instance : Inhabited Bitmask := ⟨empty⟩

/-- Wrap a buffer of at least `len` bits, however long. -/
def ofBytes (bytes : Bytes) (len : Nat) : Checked Bitmask :=
  if h : len ≤ 8 * bytes.length then .ok ⟨clearPadding bytes len, len, by simpa using h⟩
  else .error (.maskBuffer bytes.length len)

/-- A mask of `len` equal bits. -/
def filled (len : Nat) (value : Bool) : Bitmask :=
  ⟨clearPadding (List.replicate (byteCount len) (if value then 0xFF else 0)) len, len,
    by simpa using le_byteCount len⟩

/-- There must be memory for `len` bits. -/
def requireBits (len : Nat) : Checked Unit := Checked.requireBytes (byteCount len)

/-- A mask of `len` equal bits, if there is memory for it. -/
def tryFilled (len : Nat) (value : Bool) : Checked Bitmask := do
  requireBits len
  return filled len value

/-- No bits yet, with room for `len` of them. -/
def withRoom (len : Nat) : Checked Bitmask := do
  requireBits len
  return empty

def ofList (bits : List Bool) : Bitmask :=
  ⟨(List.range (byteCount bits.length)).map fun k => packByte ((bits.drop (8 * k)).take 8),
    bits.length, by simpa using le_byteCount bits.length⟩

/-- Ask for room for `additional` more bits. -/
def reserve (m : Bitmask) (additional : Nat) : Except Rejection Unit :=
  match allocate (byteCount (m.len + additional) - m.bytes.length) with
  | none => .ok ()
  | some refusal => .error (.allocationFailure (.mask (m.len + additional) refusal))

/-! ## Reading -/

/-- Bit `i`, zero past the buffer. -/
def bit (m : Bitmask) (i : Nat) : Bool := bitAt m.bytes i

/-- Bit `i` of a mask that must have it. -/
def get (m : Bitmask) (i : Nat) : Checked Bool := do
  Checked.require (i < m.len) (.maskGet i m.len)
  return m.bit i

def toList (m : Bitmask) : List Bool := (List.range m.len).map m.bit

@[simp] theorem length_toList (m : Bitmask) : m.toList.length = m.len := by
  simp [toList]

def whole (m : Bitmask) : Window := ⟨m, 0, m.len⟩

/-- The window over `len` bits from `offset` on, which the mask must have. -/
def window (m : Bitmask) (offset len : Nat) : Checked Window := do
  Checked.requireRange offset len m.len .maskWindow
  return ⟨m, offset, len⟩

def countOnes (m : Bitmask) : Nat := m.whole.countOnes

/-- The number of clear bits: the nulls of a validity mask. -/
def countZeros (m : Bitmask) : Nat := m.len - m.countOnes

def allSet (m : Bitmask) : Bool := m.countOnes == m.len

def allClear (m : Bitmask) : Bool := m.countOnes == 0

/-! ## Growth -/

/-- Clear the padding of the last byte. -/
def trim (m : Bitmask) : Bitmask :=
  ⟨clearPadding m.bytes m.len, m.len, by simpa using m.len_le⟩

/-- Cut to the first `len` bits, or grow to `len` bits by copies of `value`. Growth ORs the new bits
into the buffer, so bits that spare bytes hold come up set. -/
def resize (m : Bitmask) (len : Nat) (value : Bool) : Bitmask :=
  if h : len ≤ m.len then
    ⟨clearPadding (m.bytes.take (byteCount len)) len, len, by
      have := m.len_le
      have := le_byteCount len
      simp only [length_clearPadding, List.length_take]
      omega⟩
  else
    let grown := fit m.bytes len
    ⟨if value then orWords grown m.len (len - m.len) fun p => ones p.len else grown, len, by
      have := le_byteCount len
      split <;> simpa [grown]⟩

@[simp] theorem len_resize (m : Bitmask) (len : Nat) (value : Bool) :
    (m.resize len value).len = len := by
  unfold resize
  split <;> rfl

/-- Append `n` copies of `value`. -/
def pushMany (m : Bitmask) (value : Bool) (n : Nat) : Bitmask := m.resize (m.len + n) value

def push (m : Bitmask) (value : Bool) : Bitmask := m.pushMany value 1

/-- Set or clear bit `i`, growing the mask by clear bits up to it. -/
def set (m : Bitmask) (i : Nat) (value : Bool) : Bitmask :=
  let grown := if m.len ≤ i then m.resize (i + 1) false else m
  ⟨setBit grown.bytes i value, grown.len, by simpa using grown.len_le⟩

/-- Append the bits of a window, a word at a time. -/
def append (m : Bitmask) (w : Window) : Bitmask :=
  let grown := m.resize (m.len + w.len) false
  ⟨orWords grown.bytes m.len w.len w.word, grown.len, by simpa using grown.len_le⟩

@[simp] theorem len_pushMany (m : Bitmask) (value : Bool) (n : Nat) :
    (m.pushMany value n).len = m.len + n := by
  simp [pushMany]

@[simp] theorem len_push (m : Bitmask) (value : Bool) : (m.push value).len = m.len + 1 := by
  simp [push]

@[simp] theorem len_append (m : Bitmask) (w : Window) : (m.append w).len = m.len + w.len := by
  simp [append]

/-- A copy of a window, in a buffer of its own. -/
def ofWindow (w : Window) : Bitmask := empty.append w

/-- A copy of `len` bits from `offset` on, which the mask must have. -/
def slice (m : Bitmask) (offset len : Nat) : Checked Bitmask := do
  Checked.requireRange offset len m.len .maskSlice
  return ofWindow ⟨m, offset, len⟩

end Bitmask

/-! ## Combining windows

Masks made from windows a word at a time: the conjunction of several validity windows, the bits that
are set and valid, and the complement of a window. Every result is **tight**: it has a buffer of its
own with nothing past its length.
-/

namespace Bitmask

/-- The mask of `len` bits whose words `word` gives. -/
def ofWords (len : Nat) (word : Piece → Nat) : Bitmask :=
  ⟨orWords (zeros len) 0 len word, len, by simpa using le_byteCount len⟩

/-- The conjunction of the windows' words at a piece. It stops at the first window that clears it.
-/
def conjoin (p : Piece) : Nat → List Window → Nat
  | word, [] => word
  | word, w :: rest =>
    let next := word &&& w.word p
    if next = 0 then 0 else conjoin p next rest

/-- Bit by bit conjunction of `len` bits of the windows that are present. An absent window is all
valid, and without any window there is no mask. -/
def conjunction (windows : List (Option Window)) (len : Nat) : Option Bitmask :=
  match windows.filterMap id with
  | [] => none
  | present => some (ofWords len fun p => conjoin p (ones p.len) present)

/-- The bits that are set and valid. -/
def holding (values : Window) (validity : Option Window) : Bitmask :=
  (conjunction [some values, validity] values.len).getD (filled values.len false)

/-- The complement of a window. -/
def complement (w : Window) : Bitmask := ofWords w.len fun p => w.word p ^^^ ones wordSize

end Bitmask

/-! ## Changes of a mask

An **edit** is one change of a mask as a value: a bit is set, bits are appended or cut off. Growth
asks for memory first, so an edit to more bits than there is memory for is a fault, like a window
that the mask does not have.
-/

/-- A change of a mask. -/
inductive Edit
  /-- Set or clear a bit, growing the mask by clear bits up to it. -/
  | set (i : Nat) (value : Bool)
  /-- Cut to a length, or grow to it by copies of a bit. -/
  | resize (len : Nat) (value : Bool)
  /-- Append copies of a bit. -/
  | push (value : Bool) (n : Nat)
  /-- Append the bits of a window. -/
  | append (w : Window)
  /-- Append bits of the mask itself. -/
  | appendOwn (offset len : Nat)
  /-- Keep only a part of the mask, in a buffer of its own. -/
  | slice (offset len : Nat)
  /-- Clear the padding. -/
  | trim

namespace Bitmask

def edit (m : Bitmask) : Edit → Checked Bitmask
  | .set i value => do
    requireBits (max m.len (i + 1))
    return m.set i value
  | .resize len value => do
    requireBits len
    return m.resize len value
  | .push value n => do
    requireBits (m.len + n)
    return m.pushMany value n
  | .append w => do
    requireBits (m.len + w.len)
    return m.append w
  | .appendOwn offset len => do
    let w ← m.window offset len
    requireBits (m.len + len)
    return m.append w
  | .slice offset len => m.slice offset len
  | .trim => return m.trim

end Bitmask

end Columnar
