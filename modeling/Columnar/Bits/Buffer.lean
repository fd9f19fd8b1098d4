/-!
# Bits of byte buffers

Bits are read and written a word at a time, from any position. A loop over them, as over anything
else that is taken in equal pieces, is a list of pieces.
-/

namespace Columnar

/-! ## Consecutive pieces of a range

A loop over `len` positions that takes `size` of them per step visits the pieces `[0, size)`,
`[size, 2 * size)`, and so on, with a **last piece that may be short**. Mask operations walk their
bits in pieces of one word, and a partitioned call walks its rows in pieces of a chosen length.
-/

/-- The `len` positions from `start` on. -/
@[ext]
structure Piece where
  start : Nat
  len : Nat
  deriving DecidableEq

/-- The number of pieces of `size` positions that cover `len` positions. -/
def pieceCount (size len : Nat) : Nat := (len + (size - 1)) / size

/-- The pieces of `[0, len)`, each of `size` positions but perhaps the last. -/
def pieces (size len : Nat) : List Piece :=
  (List.range (pieceCount size len)).map fun k => ⟨k * size, min size (len - k * size)⟩

@[simp] theorem length_pieces (size len : Nat) :
    (pieces size len).length = pieceCount size len := by
  simp [pieces]

theorem piece_bounds {size len : Nat} (h : 0 < size) {p : Piece} (hp : p ∈ pieces size len) :
    0 < p.len ∧ p.len ≤ size ∧ p.start + p.len ≤ len := by
  simp only [pieces, pieceCount, List.mem_map, List.mem_range] at hp
  obtain ⟨k, hk, rfl⟩ := hp
  have hlt : k * size < len := by
    have := (Nat.le_div_iff_mul_le h).1 hk
    rw [Nat.succ_mul] at this
    omega
  simp only
  omega

theorem mem_pieces {size len : Nat} {p : Piece} :
    p ∈ pieces size len ↔
      ∃ k < pieceCount size len, (⟨k * size, min size (len - k * size)⟩ : Piece) = p := by
  simp [pieces]

theorem exists_piece {size len i : Nat} (h : 0 < size) (hi : i < len) :
    ∃ p ∈ pieces size len, p.start ≤ i ∧ i < p.start + p.len := by
  have hm := Nat.div_add_mod i size
  have hlt := Nat.mod_lt i h
  rw [Nat.mul_comm] at hm
  refine ⟨⟨i / size * size, min size (len - i / size * size)⟩, mem_pieces.2 ⟨i / size, ?_, rfl⟩, ?_⟩
  · rw [pieceCount, Nat.lt_div_iff_mul_lt h]
    omega
  · simp only
    omega

/-! ## Bits of a byte buffer

A byte buffer is read as one row of bits, **lowest bit of each byte first**: position `i` is bit
`i % 8` of byte `i / 8`. Positions past the end read as zero. A word is a natural number whose
bits are taken with `Nat.testBit`, and at most 64 of them move at a time.

`readWord` reads up to 64 bits from any position, `orWord` ORs them into a buffer. Both move eight
whole bytes at once where that can be done, and go byte by byte through parts of bytes elsewhere.
-/

abbrev Bytes := List UInt8

namespace Bits

/-- The number of bytes that hold `n` bits. -/
def byteCount (n : Nat) : Nat := (n + 7) / 8

theorem le_byteCount (n : Nat) : n ≤ 8 * byteCount n := by
  unfold byteCount
  omega

/-- The bit at position `i`, zero past the end. -/
def bitAt (bytes : Bytes) (i : Nat) : Bool := (bytes.getD (i / 8) 0).toNat.testBit (i % 8)

theorem bitAt_nil (i : Nat) : bitAt [] i = false := by
  simp [bitAt]

theorem bitAt_cons (b : UInt8) (rest : Bytes) (i : Nat) :
    bitAt (b :: rest) i = if i < 8 then b.toNat.testBit i else bitAt rest (i - 8) := by
  unfold bitAt
  split
  · rename_i h
    rw [Nat.div_eq_of_lt h, Nat.mod_eq_of_lt h]
    rfl
  · rename_i h
    obtain ⟨j, rfl⟩ : ∃ j, i = j + 8 := ⟨i - 8, by omega⟩
    simp [Nat.add_div_right]

theorem bitAt_drop (bytes : Bytes) (k i : Nat) :
    bitAt (bytes.drop k) i = bitAt bytes (8 * k + i) := by
  unfold bitAt
  rw [Nat.mul_add_div (by decide), Nat.mul_add_mod]
  simp [List.getD_eq_getElem?_getD]

theorem bitAt_take (bytes : Bytes) (k i : Nat) :
    bitAt (bytes.take k) i = (decide (i < 8 * k) && bitAt bytes i) := by
  unfold bitAt
  by_cases h : i < 8 * k
  · have : i / 8 < k := by omega
    simp [List.getD_eq_getElem?_getD, this, h]
  · have : k ≤ i / 8 := by omega
    simp [List.getD_eq_getElem?_getD, List.getElem?_take_eq_none this, h]

theorem bitAt_append (a b : Bytes) (i : Nat) :
    bitAt (a ++ b) i = if i < 8 * a.length then bitAt a i else bitAt b (i - 8 * a.length) := by
  unfold bitAt
  split
  · have : i / 8 < a.length := by omega
    simp [List.getD_eq_getElem?_getD, List.getElem?_append_left, this]
  · have h : a.length ≤ i / 8 := by omega
    have h1 : (i - 8 * a.length) / 8 = i / 8 - a.length := by omega
    have h2 : (i - 8 * a.length) % 8 = i % 8 := by omega
    simp [List.getD_eq_getElem?_getD, List.getElem?_append_right, h, h1, h2]

theorem bitAt_of_le {bytes : Bytes} {i : Nat} (h : 8 * bytes.length ≤ i) :
    bitAt bytes i = false := by
  have : bytes.length ≤ i / 8 := by omega
  simp [bitAt, List.getD_eq_getElem?_getD, List.getElem?_eq_none this]

/-! ### Words -/

def wordSize : Nat := 64

/-- The word whose low `n` bits are set, all 64 of them from 64 on. -/
def ones (n : Nat) : Nat := (BitVec.allOnes (min n wordSize)).toNat

theorem testBit_ones (n i : Nat) : (ones n).testBit i = decide (i < min n wordSize) := by
  rw [ones, BitVec.testBit_toNat, BitVec.getLsbD_allOnes]

theorem testBit_ones_of_lt {n i : Nat} (hn : n ≤ wordSize) (hi : i < n) :
    (ones n).testBit i = true := by
  rw [testBit_ones, Nat.min_eq_left hn, decide_eq_true hi]

/-- The number that a byte sequence spells, lowest byte first. -/
def littleEndian : Bytes → Nat
  | [] => 0
  | b :: rest => b.toNat + 256 * littleEndian rest

theorem testBit_littleEndian (bytes : Bytes) (i : Nat) :
    (littleEndian bytes).testBit i = bitAt bytes i := by
  induction bytes generalizing i with
  | nil => simp [littleEndian, bitAt_nil]
  | cons b rest ih =>
    have h := Nat.testBit_two_pow_mul_add (littleEndian rest) (i := 8) b.toNat_lt i
    rw [littleEndian, Nat.add_comm, show (256 : Nat) = 2 ^ 8 from rfl, h, bitAt_cons]
    split
    · rfl
    · exact ih _

/-- Eight whole bytes from `byte` on, as one word. -/
def alignedWord (bytes : Bytes) (byte : Nat) : Nat := littleEndian ((bytes.drop byte).take 8)

/-- The up to nine bytes that `n` bits from `pos` on touch, shifted down to bit zero. -/
def shiftedWord (bytes : Bytes) (pos n : Nat) : Nat :=
  littleEndian ((bytes.drop (pos / 8)).take ((pos % 8 + n + 7) / 8)) >>> (pos % 8)

/-- Read `n ≤ 64` bits from position `pos` on, into the low bits of a word. -/
def readWord (bytes : Bytes) (pos n : Nat) : Nat :=
  if n = 0 then 0
  else if pos % 8 = 0 ∧ pos / 8 + 8 ≤ bytes.length then
    alignedWord bytes (pos / 8) &&& ones n
  else
    shiftedWord bytes pos n &&& ones n

theorem testBit_alignedWord (bytes : Bytes) {pos n : Nat} (h : n ≤ wordSize) (hpos : pos % 8 = 0)
    (i : Nat) :
    (alignedWord bytes (pos / 8) &&& ones n).testBit i =
      (decide (i < n) && bitAt bytes (pos + i)) := by
  have hw : wordSize = 64 := rfl
  have hbyte : 8 * (pos / 8) + i = pos + i := by omega
  rw [Nat.testBit_and, testBit_ones, alignedWord, testBit_littleEndian, bitAt_take, bitAt_drop,
    Nat.min_eq_left h, hbyte, Bool.and_comm]
  by_cases hi : i < n
  · simp [hi]; omega
  · simp [hi]

theorem testBit_shiftedWord (bytes : Bytes) (pos : Nat) {n : Nat} (h : n ≤ wordSize) (i : Nat) :
    (shiftedWord bytes pos n &&& ones n).testBit i =
      (decide (i < n) && bitAt bytes (pos + i)) := by
  have hbyte : 8 * (pos / 8) + (pos % 8 + i) = pos + i := by omega
  rw [Nat.testBit_and, testBit_ones, shiftedWord, Nat.testBit_shiftRight, testBit_littleEndian,
    bitAt_take, bitAt_drop, Nat.min_eq_left h, hbyte, Bool.and_comm]
  by_cases hi : i < n
  · simp [hi]; omega
  · simp [hi]

/-- A word holds the bits it was read from, and no others. -/
theorem testBit_readWord (bytes : Bytes) (pos : Nat) {n : Nat} (h : n ≤ wordSize) (i : Nat) :
    (readWord bytes pos n).testBit i = (decide (i < n) && bitAt bytes (pos + i)) := by
  unfold readWord
  split
  · subst n; simp
  · split
    · rename_i h0 ha
      exact testBit_alignedWord bytes h ha.1 i
    · exact testBit_shiftedWord bytes pos h i

/-- OR a number into a byte sequence, lowest byte first. What does not fit is dropped. -/
def orBytes : Bytes → Nat → Bytes
  | [], _ => []
  | b :: rest, word => (b ||| UInt8.ofNat word) :: orBytes rest (word / 256)

@[simp] theorem length_orBytes (bytes : Bytes) (word : Nat) :
    (orBytes bytes word).length = bytes.length := by
  induction bytes generalizing word with
  | nil => rfl
  | cons b rest ih => simp [orBytes, ih]

theorem bitAt_orBytes (bytes : Bytes) (word i : Nat) :
    bitAt (orBytes bytes word) i =
      (bitAt bytes i || (decide (i < 8 * bytes.length) && word.testBit i)) := by
  induction bytes generalizing word i with
  | nil => simp [orBytes, bitAt_nil]
  | cons b rest ih =>
    rw [orBytes, bitAt_cons, bitAt_cons]
    split
    · rename_i h
      have hw : (word % 256).testBit i = word.testBit i := by
        rw [show (256 : Nat) = 2 ^ 8 from rfl, Nat.testBit_mod_two_pow]
        simp [h]
      have hl : i < 8 * (rest.length + 1) := by omega
      simp [hw, hl]
    · rename_i h
      rw [ih]
      have h1 : (word / 256).testBit (i - 8) = word.testBit i := by
        rw [show (256 : Nat) = 2 ^ 8 from rfl, ← Nat.shiftRight_eq_div_pow, Nat.testBit_shiftRight]
        congr 1; omega
      rw [h1]
      congr 2
      simp only [List.length_cons, decide_eq_decide]; omega

/-- OR the low `n` bits of a word into the bytes, from bit `shift` of the first one on. Each byte
takes the bits that it has room for and leaves the others to the next. -/
def orBits : Bytes → Nat → Nat → Nat → Bytes
  | [], _, _, _ => []
  | b :: rest, shift, word, n =>
    if n = 0 then b :: rest
    else
      let taken := min (8 - shift) n
      (b ||| UInt8.ofNat ((word &&& ones taken) <<< shift)) ::
        orBits rest 0 (word >>> taken) (n - taken)

@[simp] theorem length_orBits (bytes : Bytes) (shift word n : Nat) :
    (orBits bytes shift word n).length = bytes.length := by
  induction bytes generalizing shift word n with
  | nil => rfl
  | cons b rest ih =>
    rw [orBits]
    split <;> simp [ih]

theorem bitAt_orBits (bytes : Bytes) {shift : Nat} (hs : shift < 8) (word n i : Nat) :
    bitAt (orBits bytes shift word n) i =
      (bitAt bytes i ||
        (decide (shift ≤ i ∧ i < shift + n ∧ i < 8 * bytes.length) &&
          word.testBit (i - shift))) := by
  induction bytes generalizing shift word n i with
  | nil => simp [orBits, bitAt_nil]
  | cons b rest ih =>
    rw [orBits]
    by_cases hn : n = 0
    · have hp : ¬ (shift ≤ i ∧ i < shift + n ∧ i < 8 * (b :: rest).length) := by omega
      rw [if_pos hn, decide_eq_false hp, Bool.false_and, Bool.or_false]
    · have hw : wordSize = 64 := rfl
      rw [if_neg hn, bitAt_cons, bitAt_cons, List.length_cons]
      split
      -- The byte takes its bits of the word.
      · rename_i hi
        simp only [UInt8.toNat_or, UInt8.toNat_ofNat', Nat.testBit_or, Nat.testBit_mod_two_pow,
          Nat.testBit_shiftLeft, Nat.testBit_and, testBit_ones, hi, decide_true, Bool.true_and]
        rw [Bool.and_comm (word.testBit _), ← Bool.and_assoc, ← Bool.decide_and]
        congr 2
        rw [decide_eq_decide]
        omega
      -- The next ones take the rest, if the byte leaves any.
      · rename_i hi
        rw [ih (by decide), Nat.testBit_shiftRight]
        congr 1
        by_cases hrest : i < shift + n
        · have hbit : min (8 - shift) n + (i - 8 - 0) = i - shift := by omega
          rw [hbit]
          congr 1
          rw [decide_eq_decide]
          omega
        · have h1 : ¬ (0 ≤ i - 8 ∧ i - 8 < 0 + (n - min (8 - shift) n) ∧
              i - 8 < 8 * rest.length) := by omega
          have h2 : ¬ (shift ≤ i ∧ i < shift + n ∧ i < 8 * (rest.length + 1)) := by omega
          rw [decide_eq_false h1, decide_eq_false h2, Bool.false_and, Bool.false_and]

/-- OR the low `n ≤ 64` bits of a word into the bytes, from bit `shift` of the first one on. A whole
word at the start of a byte goes in as eight bytes. -/
def orFrom (bytes : Bytes) (shift word n : Nat) : Bytes :=
  if shift = 0 ∧ n = wordSize then orBytes bytes word else orBits bytes shift word n

@[simp] theorem length_orFrom (bytes : Bytes) (shift word n : Nat) :
    (orFrom bytes shift word n).length = bytes.length := by
  unfold orFrom
  split <;> simp

/-- Both ways of writing OR the bits of the word into those from `shift` on. -/
theorem bitAt_orFrom (bytes : Bytes) {shift : Nat} (hs : shift < 8) (word : Nat) {n : Nat}
    (h : n ≤ wordSize) (i : Nat) :
    bitAt (orFrom bytes shift (word &&& ones n) n) i =
      (bitAt bytes i ||
        (decide (shift ≤ i ∧ i < shift + n ∧ i < 8 * bytes.length) &&
          word.testBit (i - shift))) := by
  rw [orFrom]
  split
  · rename_i ha
    obtain ⟨rfl, rfl⟩ := ha
    rw [bitAt_orBytes, Nat.testBit_and, testBit_ones, Nat.min_self, Nat.sub_zero,
      Bool.and_comm (word.testBit i), ← Bool.and_assoc, ← Bool.decide_and]
    congr 2
    rw [decide_eq_decide]
    omega
  · rw [bitAt_orBits bytes hs, Nat.testBit_and, testBit_ones, Nat.min_eq_left h,
      Bool.and_comm (word.testBit _), ← Bool.and_assoc, ← Bool.decide_and]
    congr 2
    rw [decide_eq_decide]
    omega

/-- OR the low `n ≤ 64` bits of `word` into a buffer from position `pos` on. -/
def orWord (bytes : Bytes) (pos word n : Nat) : Bytes :=
  bytes.take (pos / 8) ++ orFrom (bytes.drop (pos / 8)) (pos % 8) (word &&& ones n) n

@[simp] theorem length_orWord (bytes : Bytes) (pos word n : Nat) :
    (orWord bytes pos word n).length = bytes.length := by
  simp [orWord]
  omega

/-- Writing sets the bits of the word inside the buffer, and changes no others. -/
theorem bitAt_orWord (bytes : Bytes) (pos word : Nat) {n : Nat} (h : n ≤ wordSize) (i : Nat) :
    bitAt (orWord bytes pos word n) i =
      (bitAt bytes i ||
        (decide (pos ≤ i ∧ i < pos + n ∧ i < 8 * bytes.length) && word.testBit (i - pos))) := by
  rcases Nat.lt_or_ge bytes.length (pos / 8) with hl | hl
  · have hp : ¬ (pos ≤ i ∧ i < pos + n ∧ i < 8 * bytes.length) := by omega
    have hnil : orFrom (bytes.drop (pos / 8)) (pos % 8) (word &&& ones n) n = [] := by
      rw [List.drop_of_length_le (Nat.le_of_lt hl)]
      exact List.eq_nil_of_length_eq_zero (length_orFrom _ _ _ _)
    rw [orWord, hnil, List.append_nil, List.take_of_length_le (Nat.le_of_lt hl),
      decide_eq_false hp, Bool.false_and, Bool.or_false]
  · rw [orWord, bitAt_append, bitAt_take, bitAt_orFrom _ (Nat.mod_lt _ (by decide)) _ h, bitAt_drop,
      List.length_take, List.length_drop, Nat.min_eq_left hl]
    split
    · rename_i hi
      have hp : ¬ pos ≤ i := by omega
      simp [hp, hi]
    · rename_i hi
      have h1 : 8 * (pos / 8) + (i - 8 * (pos / 8)) = i := by omega
      have h2 : i - 8 * (pos / 8) - pos % 8 = i - pos := by omega
      rw [h1, h2]
      congr 2
      rw [decide_eq_decide]
      omega

def popCount (word : Nat) : Nat := (List.range wordSize).countP word.testBit

end Bits

end Columnar
