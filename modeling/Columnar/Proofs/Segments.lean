import Columnar.Proofs.Bits.Mask
import Columnar.Segment

/-!
# Segments that read a function

Segments stand for a function of positions when each of them has the function's value at every
position that it spans. With `Segment.Tile` this says what a list of segments denotes, one segment
at a time, so it is kept by joining, merging and dropping segments.

The segment that spans a position gives its value there, and that says as much about segments that
tile a range. Where a segment must end is then settled by the values, if neighbours differ, so
**there is only one maximal tiling of a range that reads a function**.
-/

namespace Columnar

namespace Segment

variable {α : Type} {f : Nat → α}

/-- Every segment has the value of `f` at each of its positions. -/
def Reads (f : Nat → α) (segments : List (Segment α)) : Prop :=
  ∀ s ∈ segments, ∀ i, s.start ≤ i → i < s.stop → s.value = f i

theorem reads_nil : Reads f [] := fun _ hs => absurd hs List.not_mem_nil

theorem reads_cons {s : Segment α} {rest : List (Segment α)} :
    Reads f (s :: rest) ↔
      (∀ i, s.start ≤ i → i < s.stop → s.value = f i) ∧ Reads f rest := by
  simp [Reads]

theorem Reads.of_subset {xs ys : List (Segment α)} (h : Reads f ys) (hs : xs ⊆ ys) : Reads f xs :=
  fun s hx => h s (hs hx)

theorem Reads.congr {g : Nat → α} {start stop : Nat} {segments : List (Segment α)}
    (h : Reads f segments) (hin : ∀ s ∈ segments, start ≤ s.start ∧ s.stop ≤ stop)
    (hfg : ∀ i, start ≤ i → i < stop → f i = g i) : Reads g segments := by
  intro s hs i hi hlt
  have hb := hin s hs
  rw [h s hs i hi hlt]
  exact hfg i (Nat.le_trans hb.1 hi) (Nat.lt_of_lt_of_le hlt hb.2)

/-! ## Tiles -/

theorem Tile.le {start stop : Nat} {segments : List (Segment α)} (h : Tile start stop segments) :
    start ≤ stop := by
  have := h.length_expand
  omega

theorem Tile.bounds {start stop : Nat} {segments : List (Segment α)}
    (h : Tile start stop segments) {s : Segment α} (hs : s ∈ segments) :
    start ≤ s.start ∧ s.stop ≤ stop := by
  induction segments generalizing start with
  | nil => exact absurd hs List.not_mem_nil
  | cons t rest ih =>
    obtain ⟨hstart, -, hrest⟩ := h
    have hstop : t.start ≤ t.stop := Nat.le_add_right _ _
    rcases List.mem_cons.1 hs with rfl | hs
    · exact ⟨Nat.le_of_eq hstart.symm, hrest.le⟩
    · have := ih hrest hs
      exact ⟨by omega, this.2⟩

theorem Tile.append {a b c : Nat} {xs ys : List (Segment α)} (hx : Tile a b xs)
    (hy : Tile b c ys) : Tile a c (xs ++ ys) := by
  induction xs generalizing a with
  | nil =>
    cases hx
    exact hy
  | cons s rest ih => exact ⟨hx.1, hx.2.1, ih hx.2.2⟩

theorem tile_singles (start n : Nat) (f : Nat → α) :
    Tile start (start + n) ((List.range n).map fun i => ⟨start + i, 1, f i⟩) := by
  induction n with
  | zero => rfl
  | succ n ih =>
    rw [List.range_succ, List.map_append]
    exact ih.append ⟨rfl, Nat.one_pos, rfl⟩

/-- What is left of a tiling once the segments that end at or before `row` are dropped: it begins
with the segment that spans the row. -/
theorem Tile.dropWhile_stop {start stop row : Nat} {segments : List (Segment α)}
    (h : Tile start stop segments) (hs : start ≤ row) (hr : row < stop) :
    ∃ s rest, segments.dropWhile (fun s => s.stop ≤ row) = s :: rest ∧ s.start ≤ row ∧
      row < s.stop ∧ Tile s.start stop (s :: rest) := by
  induction segments generalizing start with
  | nil =>
    cases h
    omega
  | cons s rest ih =>
    obtain ⟨hstart, hlen, hrest⟩ := h
    by_cases hle : s.stop ≤ row
    · rw [List.dropWhile_cons_of_pos (by simpa using hle)]
      exact ih hrest hle
    · refine ⟨s, rest, List.dropWhile_cons_of_neg (by simpa using hle), by omega, by omega, ?_⟩
      exact ⟨rfl, hlen, hrest⟩

/-! ## Values at positions -/

/-- The value at position `i`, that of the segment which spans it. -/
def valueAt? (segments : List (Segment α)) (i : Nat) : Option α :=
  (segments.find? fun s => s.start ≤ i ∧ i < s.stop).map value

theorem valueAt?_cons_of_span {s : Segment α} {rest : List (Segment α)} {i : Nat}
    (hi : s.start ≤ i) (hlt : i < s.stop) : valueAt? (s :: rest) i = some s.value := by
  rw [valueAt?, List.find?_cons_of_pos (by simp [hi, hlt]), Option.map_some]

theorem valueAt?_cons_of_le {s : Segment α} {rest : List (Segment α)} {i : Nat}
    (hle : s.stop ≤ i) : valueAt? (s :: rest) i = valueAt? rest i := by
  rw [valueAt?, List.find?_cons_of_neg (by simp [hle]), valueAt?]

theorem Tile.exists_span {start stop i : Nat} {segments : List (Segment α)}
    (h : Tile start stop segments) (hi : start ≤ i) (hlt : i < stop) :
    ∃ s ∈ segments, s.start ≤ i ∧ i < s.stop := by
  obtain ⟨s, rest, hdrop, hstart, hstop, -⟩ := h.dropWhile_stop hi hlt
  have hs : s ∈ segments.dropWhile fun s => s.stop ≤ i := hdrop ▸ List.mem_cons_self
  exact ⟨s, (List.dropWhile_sublist _).subset hs, hstart, hstop⟩

/-- Tiles do not overlap, so the value at a position is that of any of them which spans it. -/
theorem Tile.valueAt?_of_mem {start stop i : Nat} {segments : List (Segment α)}
    (h : Tile start stop segments) {s : Segment α} (hs : s ∈ segments) (hi : s.start ≤ i)
    (hlt : i < s.stop) : valueAt? segments i = some s.value := by
  induction segments generalizing start with
  | nil => exact absurd hs List.not_mem_nil
  | cons t rest ih =>
    rcases List.mem_cons.1 hs with rfl | hs
    · exact valueAt?_cons_of_span hi hlt
    · have hstart := (h.2.2.bounds hs).1
      rw [valueAt?_cons_of_le (Nat.le_trans hstart hi)]
      exact ih h.2.2 hs

theorem Tile.reads_valueAt {start stop : Nat} {segments : List (Segment α)}
    (h : Tile start stop segments) (default : α) :
    Reads (fun i => (valueAt? segments i).getD default) segments := by
  intro s hs i hi hlt
  simp only [h.valueAt?_of_mem hs hi hlt, Option.getD_some]

/-- **What a tiling reads is its value at each position.** -/
theorem Tile.reads_iff {start stop : Nat} {segments : List (Segment α)}
    (h : Tile start stop segments) :
    Reads f segments ↔ ∀ i, start ≤ i → i < stop → valueAt? segments i = some (f i) := by
  constructor
  · intro hf i hi hlt
    obtain ⟨s, hs, hstart, hstop⟩ := h.exists_span hi hlt
    rw [h.valueAt?_of_mem hs hstart hstop, hf s hs i hstart hstop]
  · intro hvalue s hs i hi hlt
    have hin := h.bounds hs
    have hat := h.valueAt?_of_mem hs hi hlt
    rw [hvalue i (by omega) (by omega)] at hat
    exact (Option.some.inj hat).symm

/-! ## Maximal tilings -/

theorem Tile.start_lt_stop {s : Segment α} {rest : List (Segment α)} {start stop : Nat}
    (h : Tile start stop (s :: rest)) : s.start < s.stop :=
  Nat.lt_add_of_pos_right h.2.1

theorem Tile.lt {s : Segment α} {rest : List (Segment α)} {start stop : Nat}
    (h : Tile start stop (s :: rest)) : start < stop :=
  h.1 ▸ Nat.lt_of_lt_of_le h.start_lt_stop h.2.2.le

theorem Tile.value_head {s : Segment α} {rest : List (Segment α)} {start stop : Nat}
    (h : Tile start stop (s :: rest)) (hf : Reads f (s :: rest)) : s.value = f start :=
  (reads_cons.1 hf).1 start (Nat.le_of_eq h.1) (h.1 ▸ h.start_lt_stop)

theorem Maximal.tail {s : Segment α} {rest : List (Segment α)} (h : Maximal (s :: rest)) :
    Maximal rest := by
  cases rest with
  | nil => trivial
  | cons next rest => exact h.2

/-- A maximal segment stops at the first position with another value. -/
theorem Maximal.value_ne {s : Segment α} {rest : List (Segment α)} {stop : Nat}
    (h : Maximal (s :: rest)) (ht : Tile s.stop stop rest) (hf : Reads f rest)
    (hlt : s.stop < stop) : s.value ≠ f s.stop := by
  cases rest with
  | nil => exact absurd ht (Nat.ne_of_lt hlt)
  | cons next rest =>
    rw [← ht.value_head hf]
    exact h.1

/-- So it does not stop before another segment from the same start. -/
theorem Maximal.stop_le {s t : Segment α} {xs ys : List (Segment α)} {start stop : Nat}
    (h : Maximal (s :: xs)) (hs : Tile start stop (s :: xs)) (ht : Tile start stop (t :: ys))
    (hfs : Reads f (s :: xs)) (hft : Reads f (t :: ys)) : t.stop ≤ s.stop := by
  have hstart : s.start = t.start := hs.1.trans ht.1.symm
  apply Nat.le_of_not_lt
  intro hlt
  apply h.value_ne hs.2.2 (reads_cons.1 hfs).2 (Nat.lt_of_lt_of_le hlt ht.2.2.le)
  rw [hs.value_head hfs, ← ht.value_head hft]
  exact (reads_cons.1 hft).1 s.stop (hstart ▸ Nat.le_of_lt hs.start_lt_stop) hlt

/-- **There is one maximal tiling of a range that reads a function.** -/
theorem Maximal.unique {start stop : Nat} {xs ys : List (Segment α)} (hx : Maximal xs)
    (hy : Maximal ys) (htx : Tile start stop xs) (hty : Tile start stop ys) (hfx : Reads f xs)
    (hfy : Reads f ys) : xs = ys := by
  induction xs generalizing start ys with
  | nil =>
    cases ys with
    | nil => rfl
    | cons t ys => exact absurd htx (Nat.ne_of_lt hty.lt)
  | cons s xs ih =>
    cases ys with
    | nil => exact absurd hty (Nat.ne_of_lt htx.lt)
    | cons t ys =>
      have hstart : s.start = t.start := htx.1.trans hty.1.symm
      have hstop : s.stop = t.stop :=
        Nat.le_antisymm (hy.stop_le hty htx hfy hfx) (hx.stop_le htx hty hfx hfy)
      have hlen : s.len = t.len := by
        unfold Segment.stop at hstop
        omega
      have hvalue : s.value = t.value := by rw [htx.value_head hfx, hty.value_head hfy]
      rw [Segment.ext hstart hlen hvalue,
        ih hx.tail hy.tail htx.2.2 (hstop ▸ hty.2.2) (reads_cons.1 hfx).2 (reads_cons.1 hfy).2]

/-! ## Merging -/

variable [DecidableEq α]

theorem Reads.cons {s : Segment α} {segments : List (Segment α)} (h : Reads f segments)
    (hs : ∀ i, s.start ≤ i → i < s.stop → s.value = f i) : Reads f (cons s segments) := by
  unfold Segment.cons
  split
  · exact h
  · split
    · exact reads_cons.2 ⟨hs, reads_nil⟩
    · rename_i next rest
      obtain ⟨hnext, hrest⟩ := reads_cons.1 h
      split
      · rename_i hj
        apply reads_cons.2
        refine ⟨?_, hrest⟩
        intro i hi hlt
        by_cases hin : i < s.stop
        · exact hs i hi hin
        -- Past the new segment the joined one reads as the next, which has the same value.
        · have hstop : s.start + (s.len + next.len) = next.stop := by
            unfold Segment.stop at hj ⊢
            omega
          exact hj.1.trans (hnext i (by omega) (hstop ▸ hlt))
      · exact reads_cons.2 ⟨hs, h⟩

theorem Reads.merge {segments : List (Segment α)} (h : Reads f segments) :
    Reads f (merge segments) := by
  induction segments with
  | nil => exact h
  | cons s rest ih =>
    obtain ⟨hs, hrest⟩ := reads_cons.1 h
    exact (ih hrest).cons hs

theorem tile_merge_single (len : Nat) (value : α) :
    Tile 0 len (Segment.merge [⟨0, len, value⟩]) := by
  have h : @Tile α (0 + len) len [] := Nat.zero_add len
  exact h.cons (s := ⟨0, len, value⟩)

theorem reads_merge_single {len : Nat} {value : α} (h : ∀ i < len, value = f i) :
    Reads f (Segment.merge [⟨0, len, value⟩]) := by
  refine Reads.merge (reads_cons.2 ⟨fun i _ hi => h i ?_, reads_nil⟩)
  simpa [Segment.stop] using hi

end Segment

/-! ## Runs of a column are its outcomes

`Run.ofColumn` looks at a column a word at a time. Here its runs are shown to **tile the rows and to
read the outcome of each row**, wherever the two windows lie. A word with one outcome throughout is
one segment, and its value bits under nulls do not matter.

Words end where they please, and runs do not: joining makes the runs maximal, so they are **the one
maximal tiling that reads the outcomes**, and nothing of the words is left in them.
-/

open Bits

/-! ### Pieces, one after the other -/

theorem tile_flatMap_pieces {α : Type} {size len : Nat} (h : 0 < size)
    {g : Piece → List (Segment α)}
    (hg : ∀ p ∈ pieces size len, Segment.Tile p.start (p.start + p.len) (g p)) :
    Segment.Tile 0 len ((pieces size len).flatMap g) := by
  have hprefix : ∀ m ≤ pieceCount size len,
      Segment.Tile 0 (min (m * size) len) (((pieces size len).take m).flatMap g) := by
    intro m
    induction m with
    | zero =>
      intro _
      simp [Segment.Tile]
    | succ m ih =>
      intro hm
      obtain ⟨p, hp, htake, hstart, hstop⟩ := take_pieces_succ h hm
      have htile := hg p hp
      rw [hstop, hstart] at htile
      rw [htake, List.flatMap_append]
      apply (ih (Nat.le_of_lt hm)).append
      simpa using htile
  have hall := hprefix _ (Nat.le_refl _)
  rwa [List.take_of_length_le (by simp), Nat.min_eq_right (le_pieceCount_mul h len)] at hall

namespace Run

theorem ofBits_of_uniform {values valid n : Nat} {outcome : Truth} (hn : n ≤ wordSize)
    (h : uniform? values valid n = some outcome) {i : Nat} (hi : i < n) :
    Truth.ofBits (valid.testBit i) (values.testBit i) = outcome := by
  have hset := testBit_ones_of_lt hn hi
  rw [uniform?] at h
  split at h
  · rename_i h0
    cases h
    simp [h0, Truth.ofBits]
  · split at h
    · rename_i h1
      cases h
      simp [h1.1, h1.2, hset, Truth.ofBits]
    · split at h
      · rename_i h2
        cases h
        simp [h2.1, h2.2, hset, Truth.ofBits]
      · exact absurd h (by simp)

theorem tile_ofWord {p : Piece} (hp : 0 < p.len) (values valid : Nat) :
    Segment.Tile p.start (p.start + p.len) (ofWord p values valid) := by
  rw [ofWord]
  split
  · exact ⟨rfl, hp, rfl⟩
  · exact Segment.tile_singles p.start p.len _

theorem reads_ofWord {p : Piece} (hp : p.len ≤ wordSize) {values valid : Nat} {f : Nat → Truth}
    (hf : ∀ i < p.len, Truth.ofBits (valid.testBit i) (values.testBit i) = f (p.start + i)) :
    Segment.Reads f (ofWord p values valid) := by
  rw [ofWord]
  split
  · rename_i outcome hu
    apply Segment.reads_cons.2
    refine ⟨?_, Segment.reads_nil⟩
    intro i hi hlt
    obtain ⟨j, rfl⟩ : ∃ j, i = p.start + j := ⟨i - p.start, by simp only at hi; omega⟩
    have hj : j < p.len := by
      simp only [Segment.stop] at hlt
      omega
    rw [← hf j hj, ofBits_of_uniform hp hu hj]
  · intro s hs i hi hlt
    obtain ⟨j, hj, rfl⟩ := List.mem_map.1 hs
    simp only [Segment.stop] at hi hlt
    obtain rfl : i = p.start + j := by omega
    exact hf j (List.mem_range.1 hj)

/-- The outcome of row `i` of a boolean column: null where the validity bit is clear, and the value
bit's otherwise. -/
def outcomeAt (values : Window) (validity : Option Window) (i : Nat) : Truth :=
  .ofBits (validity.elim true fun w => w.bit i) (values.bit i)

/-- The segments of a column, word by word, tile its rows. -/
theorem tile_words (values : Window) (validity : Option Window) :
    Segment.Tile 0 values.len ((pieces wordSize values.len).flatMap fun p =>
      ofWord p (values.word p) (validity.elim (ones p.len) fun w => w.word p)) := by
  apply tile_flatMap_pieces (by decide)
  intro p hp
  exact tile_ofWord (piece_bounds (by decide) hp).1 _ _

theorem tile_ofColumn (values : Window) (validity : Option Window) :
    Segment.Tile 0 values.len (ofColumn values validity) :=
  (tile_words values validity).merge

theorem reads_ofColumn (values : Window) (validity : Option Window) :
    Segment.Reads (outcomeAt values validity) (ofColumn values validity) := by
  apply Segment.Reads.merge
  intro s hs
  obtain ⟨p, hp, hs⟩ := List.mem_flatMap.1 hs
  have hlen := (piece_bounds (by decide) hp).2.1
  apply reads_ofWord hlen _ s hs
  intro i hi
  have hvalue := values.testBit_word_of_lt hlen hi
  have hvalid : (validity.elim (ones p.len) fun w => w.word p).testBit i =
      validity.elim true fun w => w.bit (p.start + i) := by
    cases validity with
    | none => exact testBit_ones_of_lt hlen hi
    | some w => exact w.testBit_word_of_lt hlen hi
  rw [outcomeAt, hvalue, hvalid]

/-- A set bit under a null does not end the run of nulls. -/
example : ofColumn ⟨.ofList [true, false, true, true], 1, 3⟩
    (some ⟨.ofList [false, false, true], 0, 3⟩) = [⟨0, 2, .null⟩, ⟨2, 1, .yes⟩] := by decide

end Run

end Columnar
