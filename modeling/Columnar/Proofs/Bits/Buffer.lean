import Columnar.Bits.Bitmask

/-!
# Buffers bit by bit

What each change of a buffer does to its bits. A buffer of a given length is determined by its bits,
so this is all that there is to say about it.

Words are read and written in two ways each, by whole bytes where that can be done and by parts of
bytes elsewhere. Neither shows: **a word moves its bits and no others**, wherever it lies.
-/

namespace Columnar

namespace Bits

theorem testBit_byte_of_le (b : UInt8) {j : Nat} (hj : 8 ≤ j) : b.toNat.testBit j = false :=
  Nat.testBit_lt_two_pow (Nat.lt_of_lt_of_le b.toNat_lt (Nat.pow_le_pow_right (by decide) hj))

theorem testBit_not (b : UInt8) {j : Nat} (hj : j < 8) :
    (~~~b).toNat.testBit j = !b.toNat.testBit j := by
  have hsize : UInt8.size - 1 - b.toNat = 2 ^ 8 - (b.toNat + 1) := by
    rw [show UInt8.size = 2 ^ 8 from rfl]
    omega
  rw [UInt8.toNat_not, hsize, Nat.testBit_two_pow_sub_succ b.toNat_lt]
  simp [hj]

theorem ext_bitAt {a b : Bytes} (hl : a.length = b.length) (h : ∀ i, bitAt a i = bitAt b i) :
    a = b := by
  apply List.ext_getElem hl
  intro k hk hk'
  apply UInt8.toNat_inj.1
  apply Nat.eq_of_testBit_eq
  intro j
  by_cases hj : j < 8
  · have hdiv : (8 * k + j) / 8 = k := by omega
    have hmod : (8 * k + j) % 8 = j := by omega
    simpa [bitAt, hdiv, hmod, List.getD_eq_getElem?_getD, hk, hk'] using h (8 * k + j)
  · rw [testBit_byte_of_le _ (Nat.le_of_not_lt hj), testBit_byte_of_le _ (Nat.le_of_not_lt hj)]

theorem bitAt_replicate (n : Nat) (b : UInt8) (i : Nat) :
    bitAt (List.replicate n b) i = (decide (i < 8 * n) && b.toNat.testBit (i % 8)) := by
  rw [bitAt, List.getD_eq_getElem?_getD, List.getElem?_replicate]
  by_cases hi : i < 8 * n
  · have hdiv : i / 8 < n := by omega
    simp [hi, hdiv]
  · have hdiv : ¬ i / 8 < n := by omega
    simp [hi, hdiv]

theorem bitAt_replicate_zero (n i : Nat) : bitAt (List.replicate n 0) i = false := by
  simp [bitAt_replicate]

theorem bitAt_eq_false_iff {bytes : Bytes} :
    (∀ i, bitAt bytes i = false) ↔ ∀ b ∈ bytes, b = 0 := by
  constructor
  · intro h
    have hzero : bytes = List.replicate bytes.length 0 :=
      ext_bitAt (by simp) fun i => by rw [h i, bitAt_replicate_zero]
    exact (List.eq_replicate_iff.1 hzero).2
  · intro h i
    rw [List.eq_replicate_iff.2 ⟨rfl, h⟩, bitAt_replicate_zero]

theorem bitAt_fit (bytes : Bytes) (n i : Nat) :
    bitAt (fit bytes n) i = (decide (i < 8 * byteCount n) && bitAt bytes i) := by
  rw [fit, bitAt_append, bitAt_take, bitAt_replicate_zero, List.length_take]
  by_cases hi : i < 8 * bytes.length
  · by_cases hn : i < 8 * byteCount n
    · rw [if_pos (by omega)]
    · rw [if_neg (by omega)]
      simp [hn]
  · rw [bitAt_of_le (Nat.le_of_not_lt hi)]
    simp

theorem bitAt_modify (bytes : Bytes) (k : Nat) (f : UInt8 → UInt8) (i : Nat) :
    bitAt (bytes.modify k f) i =
      if k = i / 8 ∧ i < 8 * bytes.length then (f (bytes.getD k 0)).toNat.testBit (i % 8)
      else bitAt bytes i := by
  unfold bitAt
  rw [List.getD_eq_getElem?_getD, List.getD_eq_getElem?_getD, List.getD_eq_getElem?_getD,
    List.getElem?_modify]
  by_cases hk : k = i / 8
  · subst hk
    by_cases hi : i < 8 * bytes.length
    · have hdiv : i / 8 < bytes.length := by omega
      simp [hi, hdiv]
    · have hdiv : ¬ i / 8 < bytes.length := by omega
      simp [hi, List.getElem?_eq_none (Nat.le_of_not_lt hdiv)]
  · simp [hk]

/-- Clearing the padding clears the bits past `len` in the last byte, and no others. -/
theorem bitAt_clearPadding (bytes : Bytes) (len i : Nat) :
    bitAt (clearPadding bytes len) i =
      (bitAt bytes i && !decide (len ≤ i ∧ i < 8 * byteCount len)) := by
  have hcount : byteCount len = (len + 7) / 8 := rfl
  rw [clearPadding]
  split
  · have hp : ¬ (len ≤ i ∧ i < 8 * byteCount len) := by omega
    simp [hp]
  · rw [bitAt_modify]
    split
    · rename_i hi
      have hones : (UInt8.ofNat (ones (len % 8))).toNat.testBit (i % 8) =
          decide (i % 8 < len % 8) := by
        have hw : wordSize = 64 := rfl
        rw [UInt8.toNat_ofNat', Nat.testBit_mod_two_pow, testBit_ones, ← Bool.decide_and,
          decide_eq_decide]
        omega
      rw [UInt8.toNat_and, Nat.testBit_and, hones, hi.1, bitAt, ← decide_not]
      congr 1
      rw [decide_eq_decide]
      omega
    · rename_i hi
      by_cases hlt : i < 8 * bytes.length
      · have hp : ¬ (len ≤ i ∧ i < 8 * byteCount len) := by omega
        simp [hp]
      · simp [bitAt_of_le (Nat.le_of_not_lt hlt)]

theorem bitAt_setBit {bytes : Bytes} {i : Nat} (hi : i < 8 * bytes.length) (value : Bool)
    (j : Nat) : bitAt (setBit bytes i value) j = if j = i then value else bitAt bytes j := by
  rw [setBit, bitAt_modify]
  by_cases hbyte : i / 8 = j / 8 ∧ j < 8 * bytes.length
  · have hlt : j % 8 < 8 := Nat.mod_lt _ (by decide)
    have hmask : (UInt8.ofNat (1 <<< (i % 8))).toNat.testBit (j % 8) = decide (j = i) := by
      rw [UInt8.toNat_ofNat', Nat.testBit_mod_two_pow, Nat.one_shiftLeft, Nat.testBit_two_pow,
        ← Bool.decide_and, decide_eq_decide]
      omega
    rw [if_pos hbyte, hbyte.1, bitAt]
    cases value with
    | true =>
      rw [if_pos rfl, UInt8.toNat_or, Nat.testBit_or, hmask]
      by_cases hj : j = i <;> simp [hj]
    | false =>
      rw [if_neg Bool.false_ne_true, UInt8.toNat_and, Nat.testBit_and, testBit_not _ hlt, hmask]
      by_cases hj : j = i <;> simp [hj]
  · have hne : j ≠ i := by
      rintro rfl
      exact hbyte ⟨rfl, hi⟩
    rw [if_neg hbyte, if_neg hne]

/-! ## Words -/

/-- The bytes that the bits touch always give the word. -/
theorem readWord_eq_shiftedWord (bytes : Bytes) (pos : Nat) {n : Nat} (hn : n ≤ wordSize) :
    readWord bytes pos n = shiftedWord bytes pos n &&& ones n := by
  apply Nat.eq_of_testBit_eq
  intro j
  rw [testBit_readWord bytes pos hn, testBit_shiftedWord bytes pos hn]

/-- At the start of a byte, the eight bytes from there on give it too. -/
theorem readWord_eq_alignedWord (bytes : Bytes) {pos n : Nat} (hn : n ≤ wordSize)
    (hpos : pos % 8 = 0) : readWord bytes pos n = alignedWord bytes (pos / 8) &&& ones n := by
  apply Nat.eq_of_testBit_eq
  intro j
  rw [testBit_readWord bytes pos hn, testBit_alignedWord bytes hn hpos]

theorem write_eq_ok {bytes : Bytes} {pos n : Nat} (h : pos + n ≤ 8 * bytes.length) (word : Nat) :
    write bytes pos word n = .ok (orWord bytes pos word n) := by
  rw [write, Checked.require_of (.inr h)]
  rfl

section Write

variable (bytes : Bytes) {pos n : Nat} (hn : n ≤ wordSize) (hfits : pos + n ≤ 8 * bytes.length)
  (word : Nat)
include hn

theorem bitAt_orWord_of_outside {i : Nat} (hi : i < pos ∨ pos + n ≤ i) :
    bitAt (orWord bytes pos word n) i = bitAt bytes i := by
  have hp : ¬ (pos ≤ i ∧ i < pos + n ∧ i < 8 * bytes.length) := by omega
  rw [bitAt_orWord bytes pos word hn, decide_eq_false hp, Bool.false_and, Bool.or_false]

include hfits

theorem bitAt_orWord_of_inside {j : Nat} (hj : j < n) :
    bitAt (orWord bytes pos word n) (pos + j) = (bitAt bytes (pos + j) || word.testBit j) := by
  have hp : pos ≤ pos + j ∧ pos + j < pos + n ∧ pos + j < 8 * bytes.length := by omega
  rw [bitAt_orWord bytes pos word hn, decide_eq_true hp, Bool.true_and, Nat.add_sub_cancel_left]

/-- A word that is written over clear bits is read back. -/
theorem readWord_orWord (hclear : ∀ j < n, bitAt bytes (pos + j) = false) :
    readWord (orWord bytes pos word n) pos n = word &&& ones n := by
  apply Nat.eq_of_testBit_eq
  intro j
  rw [testBit_readWord _ _ hn, Nat.testBit_and, testBit_ones, Nat.min_eq_left hn, Bool.and_comm]
  by_cases hj : j < n
  · rw [bitAt_orWord_of_inside bytes hn hfits word hj, hclear j hj, Bool.false_or]
  · simp [hj]

end Write

/-- **Words are read and written exactly, at any position.** A word that is read holds the bits from
its position on, zero past the end of the buffer, and none above them, and either way of reading it
gives it. A word that is written goes to a range inside the buffer, where it is ORed into the bits
that are there, and no bit outside of the range changes. So over clear bits it is read back. -/
theorem readWord_write_exact (bytes : Bytes) (pos word : Nat) {n : Nat} (hn : n ≤ wordSize) :
    (∀ j, (readWord bytes pos n).testBit j = (decide (j < n) && bitAt bytes (pos + j))) ∧
      readWord bytes pos n = shiftedWord bytes pos n &&& ones n ∧
      (pos % 8 = 0 → pos / 8 + 8 ≤ bytes.length →
        readWord bytes pos n = alignedWord bytes (pos / 8) &&& ones n) ∧
      (pos + n ≤ 8 * bytes.length → ∃ after, write bytes pos word n = .ok after ∧
        after.length = bytes.length ∧
        (∀ i, i < pos ∨ pos + n ≤ i → bitAt after i = bitAt bytes i) ∧
        (∀ j < n, bitAt after (pos + j) = (bitAt bytes (pos + j) || word.testBit j)) ∧
        ((∀ j < n, bitAt bytes (pos + j) = false) →
          readWord after pos n = word &&& ones n)) := by
  refine ⟨testBit_readWord bytes pos hn, readWord_eq_shiftedWord bytes pos hn,
    fun hpos _ => readWord_eq_alignedWord bytes hn hpos, fun hfits => ?_⟩
  refine ⟨_, write_eq_ok hfits word, length_orWord _ _ _ _, ?_, ?_, ?_⟩
  · intro i hi
    exact bitAt_orWord_of_outside bytes hn word hi
  · intro j hj
    exact bitAt_orWord_of_inside bytes hn hfits word hj
  · exact readWord_orWord bytes hn hfits word

/-- Thirteen bits go over parts of three bytes, between bits that stay. -/
theorem readWord_write_across_bytes :
    ∃ after, write [0x1F, 0, 0xFC, 1] 5 0x1ABC 13 = .ok after ∧ after = [0x9F, 0x57, 0xFF, 1] ∧
      readWord after 5 13 = 0x1ABC := by
  obtain ⟨after, hok, -, -, -, hback⟩ :=
    (readWord_write_exact [0x1F, 0, 0xFC, 1] 5 0x1ABC (n := 13) (by decide)).2.2.2 (by decide)
  exact ⟨after, hok, by cases hok; decide, hback (by decide)⟩

/-! ## Packing -/

theorem testBit_foldr (bits : List Bool) (j : Nat) :
    (bits.foldr (fun (b : Bool) rest => b.toNat + 2 * rest) 0).testBit j = bits.getD j false := by
  induction bits generalizing j with
  | nil => simp
  | cons b bits ih =>
    rw [List.foldr_cons]
    cases j with
    | zero => cases b <;> simp [Nat.testBit_zero]
    | succ j =>
      have hhalf : ∀ n, (b.toNat + 2 * n) / 2 = n := by
        intro n
        have hb := b.toNat_le
        omega
      rw [Nat.testBit_succ, hhalf, ih, List.getD_cons_succ]

theorem testBit_packByte {bits : List Bool} (h : bits.length ≤ 8) (j : Nat) :
    (packByte bits).toNat.testBit j = bits.getD j false := by
  by_cases hj : j < 8
  · rw [packByte, UInt8.toNat_ofNat', Nat.testBit_mod_two_pow, testBit_foldr]
    simp [hj]
  · rw [testBit_byte_of_le _ (Nat.le_of_not_lt hj)]
    have hnone : bits.length ≤ j := by omega
    simp [hnone]

end Bits

end Columnar
