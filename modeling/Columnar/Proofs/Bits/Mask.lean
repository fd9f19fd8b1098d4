import Columnar.Column.Form
import Columnar.Proofs.Bits.Buffer

/-!
# Windows and masks as lists of bits

Bits are read and written a word at a time. Nothing of the words is left in what is read and
written: windows and masks are the lists of their bits.
-/

namespace Columnar

/-! ## Windows as lists of bits

A window is read a word at a time, at any bit offset. Here it is shown to be what it looks like: the
pieces of a range visit its positions in order, so **a window is the list of its bits**, and its
popcount counts that list.
-/

open Bits

/-! ### Lists over a range -/

theorem map_range_add {α : Type} (f : Nat → α) (a b : Nat) :
    (List.range (a + b)).map f = (List.range a).map f ++ (List.range b).map fun j => f (a + j) := by
  rw [List.range_add, List.map_append, List.map_map]
  rfl

theorem map_range_congr {α : Type} {f g : Nat → α} {n : Nat} (h : ∀ i < n, f i = g i) :
    (List.range n).map f = (List.range n).map g :=
  List.map_congr_left fun i hi => h i (List.mem_range.1 hi)

theorem map_range_const {α : Type} (x : α) (n : Nat) :
    ((List.range n).map fun _ => x) = List.replicate n x := by
  rw [List.map_const', List.length_range]

/-! ### Pieces, one after the other -/

theorem le_pieceCount_mul {size : Nat} (h : 0 < size) (len : Nat) :
    len ≤ pieceCount size len * size := by
  have := Nat.div_add_mod (len + (size - 1)) size
  have := Nat.mod_lt (len + (size - 1)) h
  rw [pieceCount, Nat.mul_comm]
  omega

theorem take_pieces_succ {size len m : Nat} (h : 0 < size) (hm : m < pieceCount size len) :
    ∃ p ∈ pieces size len, (pieces size len).take (m + 1) = (pieces size len).take m ++ [p] ∧
      p.start = min (m * size) len ∧ p.start + p.len = min ((m + 1) * size) len := by
  have hmul : m * size < len := by
    have := (Nat.le_div_iff_mul_le h).1 hm
    rw [Nat.succ_mul] at this
    omega
  have hget : (pieces size len)[m]? = some ⟨m * size, min size (len - m * size)⟩ := by
    simp [pieces, hm]
  refine ⟨_, List.mem_of_getElem? hget, by rw [List.take_add_one, hget, Option.toList_some], ?_, ?_⟩
  · exact (Nat.min_eq_left (Nat.le_of_lt hmul)).symm
  · rw [Nat.succ_mul]
    simp only
    omega

/-- The pieces of a range visit its positions in order. -/
theorem flatMap_pieces {α : Type} {size : Nat} (h : 0 < size) (len : Nat) (f : Nat → α) :
    (pieces size len).flatMap (fun p => (List.range p.len).map fun j => f (p.start + j)) =
      (List.range len).map f := by
  have hprefix : ∀ m ≤ pieceCount size len, ((pieces size len).take m).flatMap
      (fun p => (List.range p.len).map fun j => f (p.start + j)) =
        (List.range (min (m * size) len)).map f := by
    intro m
    induction m with
    | zero => simp
    | succ m ih =>
      intro hm
      obtain ⟨p, -, htake, hstart, hstop⟩ := take_pieces_succ h hm
      rw [htake, List.flatMap_append, ih (Nat.le_of_lt hm), ← hstop, map_range_add, ← hstart]
      simp
  have hall := hprefix _ (Nat.le_refl _)
  rwa [List.take_of_length_le (by simp), Nat.min_eq_right (le_pieceCount_mul h len)] at hall

/-! ### Windows -/

namespace Window

/-- A word of a window holds the window's bits at its piece, and no others. -/
theorem testBit_word (w : Window) {p : Piece} (hp : p.len ≤ wordSize) (i : Nat) :
    (w.word p).testBit i = (decide (i < p.len) && w.bit (p.start + i)) := by
  rw [word, testBit_readWord _ _ hp, bit, Nat.add_assoc]

theorem testBit_word_of_lt (w : Window) {p : Piece} (hp : p.len ≤ wordSize) {i : Nat}
    (hi : i < p.len) : (w.word p).testBit i = w.bit (p.start + i) := by
  rw [w.testBit_word hp, decide_eq_true hi, Bool.true_and]

end Window

theorem popCount_eq {word n : Nat} (hn : n ≤ wordSize) (h : ∀ i, n ≤ i → word.testBit i = false) :
    popCount word = ((List.range n).map word.testBit).count true := by
  obtain ⟨k, hk⟩ : ∃ k, wordSize = n + k := ⟨wordSize - n, by omega⟩
  have hrest : (List.range k).countP (fun j => word.testBit (n + j)) = 0 := by
    rw [List.countP_eq_zero]
    intro j _
    simp [h (n + j) (Nat.le_add_right n j)]
  have hcount : ∀ l : List Nat, (l.map word.testBit).count true = l.countP word.testBit := by
    intro l
    simp only [List.count, List.countP_map]
    congr 1
    funext i
    simp
  rw [popCount, hk, List.range_add, List.countP_append, List.countP_map, hcount]
  simpa [Function.comp_def] using hrest

namespace Window

/-- The popcount of a window counts the set bits of its list. -/
theorem countOnes_eq (w : Window) : w.countOnes = w.toList.count true := by
  have hword : ∀ p ∈ pieces wordSize w.len,
      popCount (w.word p) = ((List.range p.len).map fun j => w.bit (p.start + j)).count true := by
    intro p hp
    have hlen := (piece_bounds (by decide) hp).2.1
    rw [popCount_eq hlen fun i hi => by simp [w.testBit_word hlen, Nat.not_lt.2 hi]]
    congr 1
    apply map_range_congr
    intro i hi
    exact w.testBit_word_of_lt hlen hi
  rw [toList, ← flatMap_pieces (by decide : 0 < wordSize), countOnes]
  generalize pieces wordSize w.len = ps at hword
  induction ps with
  | nil => rfl
  | cons p ps ih =>
    rw [List.foldr_cons, List.flatMap_cons, List.count_append, hword p (.head _),
      ih fun q hq => hword q (.tail _ hq)]

theorem countOnes_ne_len {w : Window} : w.countOnes ≠ w.len ↔ false ∈ w.toList := by
  rw [countOnes_eq, ← length_toList, ne_eq, List.count_eq_length]
  simp

theorem countZeros_eq (w : Window) : w.countZeros = w.toList.count false := by
  have hsum : ∀ l : List Bool, l.length - l.count true = l.count false := by
    intro l
    induction l with
    | nil => rfl
    | cons b l ih =>
      have := List.count_le_length (a := true) (l := l)
      cases b <;> simp <;> omega
  rw [countZeros, countOnes_eq, ← hsum, length_toList]

end Window

/-! ## Masks as lists of bits

A mask grows a word at a time, by OR into its buffer. That is the same as appending to the list of
its bits if the mask is **clean**, that is, if no bit past its length is set, be it in the last byte
or in a spare one. A change of a clean mask leaves a clean mask, and growth leaves a **tight** one.
A tight mask is determined by its list: two ways of making one that agree on the bits agree on the
bytes.
-/

namespace Bitmask

/-- No bit past the length is set. -/
def Clean (m : Bitmask) : Prop := ∀ i, m.len ≤ i → m.bit i = false

/-- A tight mask is a clean one without spare bytes. -/
theorem tight_iff {m : Bitmask} : m.Tight ↔ m.bytes.length = byteCount m.len ∧ m.Clean := by
  refine and_congr_right fun _ => ⟨fun h i hi => ?_, fun h i _ hi => h i hi⟩
  by_cases hb : i < 8 * m.bytes.length
  · exact h i hb hi
  · exact bitAt_of_le (Nat.le_of_not_lt hb)

theorem Tight.clean {m : Bitmask} (h : m.Tight) : m.Clean := (tight_iff.1 h).2

theorem getElem?_toList (m : Bitmask) (i : Nat) :
    m.toList[i]? = if i < m.len then some (m.bit i) else none := by
  by_cases h : i < m.len <;> simp [toList, h]

/-- **The bits of a tight mask determine it**, buffer and all. -/
theorem Tight.ext {m n : Bitmask} (hm : m.Tight) (hn : n.Tight) (h : m.toList = n.toList) :
    m = n := by
  have hlen : m.len = n.len := by simpa using congrArg List.length h
  refine Bitmask.ext ?_ hlen
  apply ext_bitAt (by rw [hm.1, hn.1, hlen])
  intro i
  by_cases hi : i < m.len
  · have hget := congrArg (·[i]?) h
    simp only [getElem?_toList, ← hlen, if_pos hi, Option.some.injEq] at hget
    exact hget
  · have h1 := hm.clean i (Nat.le_of_not_lt hi)
    have h2 := hn.clean i (hlen ▸ Nat.le_of_not_lt hi)
    exact h1.trans h2.symm

theorem tight_empty : empty.Tight := ⟨rfl, fun _ hi => absurd hi (Nat.not_lt_zero _)⟩

@[simp] theorem toList_empty : empty.toList = [] := rfl

theorem toList_whole (m : Bitmask) : m.whole.toList = m.toList :=
  map_range_congr fun i _ => by rw [Window.bit, whole, Nat.zero_add, bit]

theorem toList_window {m : Bitmask} {offset len : Nat} (h : offset + len ≤ m.len) :
    (Window.mk m offset len).toList = (m.toList.drop offset).take len := by
  apply List.ext_getElem (by simp; omega)
  intro i hi hi'
  simp [Window.toList, Window.bit, toList, bit]

/-! ### Resizing -/

theorem length_bytes_resize (m : Bitmask) (len : Nat) (value : Bool) :
    (m.resize len value).bytes.length = byteCount len := by
  have hlen := m.len_le
  have hcount : byteCount len = (len + 7) / 8 := rfl
  rw [resize]
  split
  · simp only [length_clearPadding, List.length_take]
    omega
  · cases value <;> simp

theorem bit_resize_of_le {m : Bitmask} {len : Nat} (h : len ≤ m.len) (value : Bool) (i : Nat) :
    (m.resize len value).bit i = (decide (i < len) && m.bit i) := by
  have hcount := le_byteCount len
  rw [resize, dif_pos h]
  simp only [bit, bitAt_clearPadding, bitAt_take]
  by_cases hi : i < len
  · have hbyte : i < 8 * byteCount len := by omega
    simp [hi, hbyte]
  · by_cases hbyte : i < 8 * byteCount len
    · have hle : len ≤ i := Nat.le_of_not_lt hi
      simp [hi, hbyte, hle]
    · simp [hi, hbyte]

/-- Growth takes over all bits that the new buffer has room for, and sets the new ones besides if it
is to set them. -/
theorem bit_resize_of_lt {m : Bitmask} {len : Nat} (h : m.len < len) (value : Bool) (i : Nat) :
    (m.resize len value).bit i =
      ((decide (i < 8 * byteCount len) && m.bit i) ||
        (decide (m.len ≤ i ∧ i < len) && value)) := by
  have hcount := le_byteCount len
  rw [resize, dif_neg (Nat.not_le.2 h)]
  cases value with
  | false => simp [bit, bitAt_fit]
  | true =>
    -- Set bits are ORed into the fitted buffer, one word of ones for each piece.
    have hones : ∀ p ∈ pieces wordSize (len - m.len), ∀ j < p.len,
        (ones p.len).testBit j = true := by
      intro p hp j hj
      exact testBit_ones_of_lt (piece_bounds (by decide) hp).2.1 hj
    simp only [bit, if_true]
    rw [bitAt_orWords _ _ _ (f := fun _ => true) hones, bitAt_fit, length_fit]
    congr 2
    rw [decide_eq_decide]
    omega

section Clean

variable {m : Bitmask} (h : m.Clean)
include h

theorem Clean.bit_resize (len : Nat) (value : Bool) (i : Nat) :
    (m.resize len value).bit i =
      (decide (i < len) && (m.bit i || (decide (m.len ≤ i) && value))) := by
  rcases Nat.lt_or_ge m.len len with hlt | hle
  · rw [bit_resize_of_lt hlt]
    by_cases hi : i < len
    · have hbyte : i < 8 * byteCount len := Nat.lt_of_lt_of_le hi (le_byteCount len)
      simp [hi, hbyte]
    · simp [hi, h i (by omega)]
  · rw [bit_resize_of_le hle]
    by_cases hi : i < len
    · have hm : ¬ m.len ≤ i := by omega
      simp [hi, hm]
    · simp [hi]

theorem Clean.resize (len : Nat) (value : Bool) : (m.resize len value).Tight := by
  rw [tight_iff, length_bytes_resize, len_resize]
  refine ⟨rfl, fun i hi => ?_⟩
  rw [len_resize] at hi
  rw [h.bit_resize]
  simp [Nat.not_lt.2 hi]

theorem Clean.toList_resize (len : Nat) (value : Bool) :
    (m.resize len value).toList =
      m.toList.take len ++ List.replicate (len - m.len) value := by
  have hbit := h.bit_resize len value
  rcases Nat.le_total len m.len with hle | hle
  · rw [Nat.sub_eq_zero_of_le hle, List.replicate_zero, List.append_nil, toList, len_resize, toList,
      ← List.map_take, List.take_range, Nat.min_eq_left hle]
    apply map_range_congr
    intro i hi
    have hm : ¬ m.len ≤ i := by omega
    simp [hbit, hi, hm]
  · obtain ⟨n, rfl⟩ := Nat.exists_eq_add_of_le hle
    rw [List.take_of_length_le (by simp), Nat.add_sub_cancel_left, toList, len_resize,
      map_range_add, toList, ← map_range_const]
    congr 1
    · apply map_range_congr
      intro i hi
      have hm : ¬ m.len ≤ i := by omega
      have hlt : i < m.len + n := by omega
      simp [hbit, hlt, hm]
    · apply map_range_congr
      intro j hj
      simp [hbit, hj, h (m.len + j) (Nat.le_add_right _ _)]

theorem Clean.pushMany (value : Bool) (n : Nat) : (m.pushMany value n).Tight := h.resize _ value

theorem Clean.push (value : Bool) : (m.push value).Tight := h.pushMany value 1

theorem Clean.toList_pushMany (value : Bool) (n : Nat) :
    (m.pushMany value n).toList = m.toList ++ List.replicate n value := by
  rw [Bitmask.pushMany, h.toList_resize, List.take_of_length_le (by simp), Nat.add_sub_cancel_left]

theorem Clean.toList_push (value : Bool) : (m.push value).toList = m.toList ++ [value] :=
  h.toList_pushMany value 1

/-! ### Appending windows -/

theorem Clean.bit_append (w : Window) (i : Nat) :
    (m.append w).bit i =
      (m.bit i || (decide (m.len ≤ i ∧ i < m.len + w.len) && w.bit (i - m.len))) := by
  have hword : ∀ p ∈ pieces wordSize w.len, ∀ j < p.len,
      (w.word p).testBit j = w.bit (p.start + j) := by
    intro p hp j hj
    exact w.testBit_word_of_lt (piece_bounds (by decide) hp).2.1 hj
  -- No bit is lost when the buffer is fitted, as none is set where there is no room.
  have hbit : bitAt (m.resize (m.len + w.len) false).bytes i = m.bit i := by
    have hresize := h.bit_resize (m.len + w.len) false i
    rw [bit] at hresize
    by_cases hi : i < m.len + w.len
    · simpa [hi] using hresize
    · rw [h i (by omega)]
      simpa [hi] using hresize
  have hcount := le_byteCount (m.len + w.len)
  simp only [bit, append]
  rw [bitAt_orWords _ _ _ hword, hbit, length_bytes_resize, bit]
  congr 2
  rw [decide_eq_decide]
  omega

theorem Clean.append (w : Window) : (m.append w).Tight := by
  rw [tight_iff, len_append]
  refine ⟨by simp [Bitmask.append, length_bytes_resize], fun i hi => ?_⟩
  rw [len_append] at hi
  have hp : ¬ (m.len ≤ i ∧ i < m.len + w.len) := by omega
  rw [h.bit_append, h i (by omega)]
  simp [hp]

theorem Clean.toList_append (w : Window) : (m.append w).toList = m.toList ++ w.toList := by
  rw [toList, len_append, map_range_add, toList, Window.toList]
  congr 1
  · apply map_range_congr
    intro i hi
    have hp : ¬ (m.len ≤ i ∧ i < m.len + w.len) := by omega
    simp [h.bit_append, hp]
  · apply map_range_congr
    intro j hj
    simp [h.bit_append, h (m.len + j) (Nat.le_add_right _ _), hj]

/-! ### Single bits -/

theorem Clean.trim_eq : m.trim = m := by
  refine Bitmask.ext (ext_bitAt (length_clearPadding _ _) fun i => ?_) rfl
  rw [trim, bitAt_clearPadding]
  by_cases hi : m.len ≤ i
  · have hbit : bitAt m.bytes i = false := h i hi
    simp [hbit]
  · simp [hi]

end Clean

theorem set_of_le {m : Bitmask} {i : Nat} (hi : m.len ≤ i) (value : Bool) :
    m.set i value = (m.resize (i + 1) false).set i value := by
  have hlen : ¬ (m.resize (i + 1) false).len ≤ i := by
    rw [len_resize]
    exact Nat.not_succ_le_self i
  simp only [set, if_pos hi, if_neg hlen]

theorem bit_set {m : Bitmask} {i : Nat} (hi : i < m.len) (value : Bool) (j : Nat) :
    (m.set i value).bit j = if j = i then value else m.bit j := by
  have hlen := m.len_le
  simp only [set, bit, if_neg (Nat.not_le.2 hi)]
  rw [bitAt_setBit (by omega)]

theorem len_set {m : Bitmask} {i : Nat} (hi : i < m.len) (value : Bool) :
    (m.set i value).len = m.len := by
  simp [set, Nat.not_le.2 hi]

theorem toList_set {m : Bitmask} {i : Nat} (hi : i < m.len) (value : Bool) :
    (m.set i value).toList = m.toList.set i value := by
  apply List.ext_getElem (by simp [len_set hi])
  intro j hj hj'
  simp only [toList, List.getElem_map, List.getElem_range, bit_set hi, List.getElem_set,
    eq_comm (a := i)]

theorem Clean.set_of_lt {m : Bitmask} (h : m.Clean) {i : Nat} (hi : i < m.len) (value : Bool) :
    (m.set i value).Clean := by
  intro j hj
  rw [len_set hi] at hj
  rw [bit_set hi, if_neg (by omega), h j hj]

theorem Clean.set {m : Bitmask} (h : m.Clean) (i : Nat) (value : Bool) :
    (m.set i value).Clean ∧
      (m.set i value).toList = (m.toList ++ List.replicate (i + 1 - m.len) false).set i value := by
  rcases Nat.lt_or_ge i m.len with hlt | hle
  · rw [Nat.sub_eq_zero_of_le hlt, List.replicate_zero, List.append_nil]
    exact ⟨h.set_of_lt hlt value, toList_set hlt value⟩
  · have hgrown := (h.resize (i + 1) false).clean
    have hi : i < (m.resize (i + 1) false).len := by simp
    rw [set_of_le hle]
    refine ⟨hgrown.set_of_lt hi value, ?_⟩
    rw [toList_set hi, h.toList_resize, List.take_of_length_le (by simp; omega)]

theorem Tight.foldl_push {m : Bitmask} (h : m.Tight) (bits : List Bool) :
    (bits.foldl push m).Tight ∧ (bits.foldl push m).toList = m.toList ++ bits := by
  induction bits generalizing m with
  | nil => exact ⟨h, by simp⟩
  | cons b bits ih =>
    obtain ⟨htight, hlist⟩ := ih (h.clean.push b)
    refine ⟨htight, ?_⟩
    rw [List.foldl_cons, hlist, h.clean.toList_push, List.append_assoc, List.singleton_append]

/-! ### Copies -/

theorem tight_ofWindow (w : Window) : (ofWindow w).Tight := tight_empty.clean.append w

theorem toList_ofWindow (w : Window) : (ofWindow w).toList = w.toList :=
  tight_empty.clean.toList_append w

@[simp] theorem len_ofWindow (w : Window) : (ofWindow w).len = w.len := by
  rw [← length_toList, toList_ofWindow, Window.length_toList]

theorem slice_eq {m : Bitmask} {offset len : Nat} (h : offset + len ≤ m.len) :
    m.slice offset len = .ok (ofWindow ⟨m, offset, len⟩) := by
  rw [slice, Checked.requireRange, Checked.require_of h]
  rfl

/-! ### Construction -/

theorem tight_filled (len : Nat) (value : Bool) : (filled len value).Tight := by
  refine tight_iff.2 ⟨by simp [filled], fun i hi => ?_⟩
  simp only [filled] at hi
  simp only [filled, bit, bitAt_clearPadding, bitAt_replicate]
  by_cases hbyte : i < 8 * byteCount len <;> simp [hi, hbyte]

theorem toList_filled (len : Nat) (value : Bool) :
    (filled len value).toList = List.replicate len value := by
  rw [toList, ← map_range_const]
  apply map_range_congr
  intro i hi
  have hlt : i < len := hi
  have hbyte : i < 8 * byteCount len := Nat.lt_of_lt_of_le hlt (le_byteCount len)
  simp only [filled, bit, bitAt_clearPadding, bitAt_replicate]
  cases value with
  | false => simp
  | true =>
    have hfull : (255 : Nat).testBit (i % 8) = true := by
      rw [show (255 : Nat) = 2 ^ 8 - 1 from rfl, Nat.testBit_two_pow_sub_one]
      simp [Nat.mod_lt]
    simp [hbyte, Nat.not_le.2 hlt, hfull]

theorem bit_ofList (bits : List Bool) (i : Nat) : (ofList bits).bit i = bits.getD i false := by
  have hcount : byteCount bits.length = (bits.length + 7) / 8 := rfl
  simp only [bit, ofList, bitAt, List.getD_eq_getElem?_getD, List.getElem?_map]
  by_cases hi : i / 8 < byteCount bits.length
  · have hpart : ((bits.drop (8 * (i / 8))).take 8).length ≤ 8 := List.length_take_le _ _
    have hmod : i % 8 < 8 := Nat.mod_lt _ (by decide)
    have hdiv : 8 * (i / 8) + i % 8 = i := Nat.div_add_mod i 8
    rw [List.getElem?_range hi, Option.map_some, Option.getD_some, testBit_packByte hpart,
      List.getD_eq_getElem?_getD, List.getElem?_take_of_lt hmod, List.getElem?_drop, hdiv]
  · have hle : bits.length ≤ i := by omega
    rw [List.getElem?_eq_none (by simpa using hi), List.getElem?_eq_none hle]
    simp

theorem tight_ofList (bits : List Bool) : (ofList bits).Tight := by
  refine tight_iff.2 ⟨by simp [ofList], fun i hi => ?_⟩
  have hle : bits.length ≤ i := hi
  simp [bit_ofList, hle]

theorem toList_ofList (bits : List Bool) : (ofList bits).toList = bits := by
  apply List.ext_getElem (by simp [ofList])
  intro i hi hi'
  simp [toList, bit_ofList, hi']

end Bitmask

end Columnar
