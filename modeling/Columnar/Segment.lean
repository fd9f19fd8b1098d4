import Columnar.Bits.Bitmask

/-!
# Segments

A row of values in which neighbours tend to be equal is kept as **segments** of equal values. The
runs of a condition and the plan of a call are both of this kind. `expand` gives the values back,
one by one; a list of segments **tiles** a range if they are non-empty and follow one another from
its start to its end, and it is **maximal** if neighbours differ. All three together fix the list.

`cons` puts one segment in front of others and joins it with the first if it can, so `merge` makes
maximal segments out of any others that tile.
-/

namespace Columnar

/-- The `len` positions from `start` on, and the value that they share. -/
@[ext]
structure Segment (α : Type) where
  start : Nat
  len : Nat
  value : α
  deriving DecidableEq

namespace Segment

variable {α : Type}

/-- The position after the segment's last. -/
def stop (s : Segment α) : Nat := s.start + s.len

/-- The values, position by position. -/
def expand (segments : List (Segment α)) : List α :=
  segments.flatMap fun s => List.replicate s.len s.value

/-- The segments are non-empty and follow one another from `start` to `stop`. -/
def Tile (start stop : Nat) : List (Segment α) → Prop
  | [] => start = stop
  | s :: rest => s.start = start ∧ 0 < s.len ∧ Tile s.stop stop rest

/-- Neighbours differ in value. -/
def Maximal : List (Segment α) → Prop
  | s :: next :: rest => s.value ≠ next.value ∧ Maximal (next :: rest)
  | _ => True

@[simp] theorem expand_nil : expand ([] : List (Segment α)) = [] := rfl

@[simp] theorem expand_eq_append (s : Segment α) (rest : List (Segment α)) :
    expand (s :: rest) = List.replicate s.len s.value ++ expand rest := by
  simp [expand]

theorem Tile.length_expand {start stop : Nat} {segments : List (Segment α)}
    (h : Tile start stop segments) : start + (expand segments).length = stop := by
  induction segments generalizing start with
  | nil => simpa [Tile] using h
  | cons s rest ih =>
    have hs := h.1
    have := ih h.2.2
    simp only [expand_eq_append, List.length_append, List.length_replicate]
    unfold Segment.stop at this
    omega

/-! ## Merging -/

variable [DecidableEq α]

/-- Put a segment in front of others. An empty one is dropped, and one that the first of the others
continues is joined with it. -/
def cons (s : Segment α) (segments : List (Segment α)) : List (Segment α) :=
  if s.len = 0 then segments
  else
    match segments with
    | [] => [s]
    | next :: rest =>
      if s.value = next.value ∧ s.stop = next.start then
        ⟨s.start, s.len + next.len, s.value⟩ :: rest
      else s :: next :: rest

/-- Join all neighbours that can be joined. -/
def merge (segments : List (Segment α)) : List (Segment α) := segments.foldr cons []

@[simp] theorem expand_cons (s : Segment α) (segments : List (Segment α)) :
    expand (cons s segments) = List.replicate s.len s.value ++ expand segments := by
  unfold cons
  split
  · simp [*]
  · split
    · simp
    · split
      · rename_i h
        simp [← h.1, ← List.replicate_append_replicate]
      · simp

@[simp] theorem expand_merge (segments : List (Segment α)) :
    expand (merge segments) = expand segments := by
  induction segments with
  | nil => rfl
  | cons s rest ih =>
    rw [merge] at ih
    rw [merge, List.foldr_cons, expand_cons, ih, expand_eq_append]

theorem Tile.cons {s : Segment α} {stop : Nat} {segments : List (Segment α)}
    (h : Tile s.stop stop segments) : Tile s.start stop (cons s segments) := by
  unfold Segment.cons
  split
  · rename_i h0
    simpa [Segment.stop, h0] using h
  · rename_i h0
    split
    · exact ⟨rfl, by omega, h⟩
    · split
      · refine ⟨rfl, by simp only; omega, ?_⟩
        have h2 := h.2.2
        have h1 := h.1
        simp only [Segment.stop] at h1 h2 ⊢
        rwa [← Nat.add_assoc, ← h1]
      · exact ⟨rfl, by omega, h⟩

/-- Joined segments stay maximal, if they start where the new one stops. -/
theorem Maximal.cons {s : Segment α} {stop : Nat} {segments : List (Segment α)}
    (h : Maximal segments) (ht : Tile s.stop stop segments) : Maximal (cons s segments) := by
  unfold Segment.cons
  split
  · exact h
  · split
    · trivial
    · rename_i next rest
      split
      · rename_i hj
        cases rest with
        | nil => trivial
        | cons t rest => exact ⟨hj.1 ▸ h.1, h.2⟩
      · rename_i hj
        exact ⟨fun hv => hj ⟨hv, ht.1.symm⟩, h⟩

theorem Tile.merge {start stop : Nat} {segments : List (Segment α)}
    (h : Tile start stop segments) : Tile start stop (merge segments) := by
  induction segments generalizing start with
  | nil => exact h
  | cons s rest ih => exact h.1 ▸ (ih h.2.2).cons

end Segment

/-! ## Runs of a three-valued column

A boolean column with validity has three outcomes per row: true, false and null. `Run.ofColumn`
splits a column into its **maximal runs** of one outcome. A word of 64 rows that has one outcome
throughout is one segment, and any other word has a segment per row; neighbours with one outcome are
joined.
-/

open Bits

/-- The outcome of a three-valued row. -/
inductive Truth
  | yes
  | no
  | null
  deriving DecidableEq

namespace Truth

/-- The outcome of a nullable truth value. -/
def ofOption : Option Bool → Truth
  | some true => yes
  | some false => no
  | none => null

/-- The outcome of a row from its validity and its value. -/
def ofBits (valid value : Bool) : Truth := if !valid then null else if value then yes else no

end Truth

/-- Rows with one outcome. -/
abbrev Run := Segment Truth

namespace Run

/-- The outcome that all `n` rows of a word share, if they do. -/
def uniform? (values valid n : Nat) : Option Truth :=
  if valid = 0 then some .null
  else if valid = ones n ∧ values = ones n then some .yes
  else if valid = ones n ∧ values = 0 then some .no
  else none

/-- The segments of one word of rows. -/
def ofWord (p : Piece) (values valid : Nat) : List Run :=
  match uniform? values valid p.len with
  | some outcome => [⟨p.start, p.len, outcome⟩]
  | none =>
    (List.range p.len).map fun i => ⟨p.start + i, 1, .ofBits (valid.testBit i) (values.testBit i)⟩

/-- The maximal runs of a boolean column: a values window and a validity window of its length.
Without a validity window every row is valid. -/
def ofColumn (values : Window) (validity : Option Window) : List Run :=
  Segment.merge <| (pieces wordSize values.len).flatMap fun p =>
    ofWord p (values.word p) (validity.elim (ones p.len) fun w => w.word p)

/-- The maximal runs of a mask: set bits are true, clear bits false. -/
def ofBits (bits : Window) : List Run := ofColumn bits none

/-- One run over all `len` rows, and none without rows. -/
def constant (len : Nat) (value : Truth) : List Run := Segment.merge [⟨0, len, value⟩]

end Run

end Columnar
