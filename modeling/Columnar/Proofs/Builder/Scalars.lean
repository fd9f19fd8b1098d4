import Columnar.Proofs.Builder.Reachable
import Columnar.Proofs.View
import Mathlib.Data.List.Flatten

/-!
# Columns out of scalars

A column can be taken apart into the scalars of its rows, and put together again by filling a
builder with one scalar after the other. That is not how rows are copied: lists are materialized on
the way, text is decoded and encoded, offsets and masks are made anew, and what is stored under a
null is lost. The values all come back, and so does **the column itself, if nothing is stored under
its nulls** but the default of the type.
-/

namespace Columnar

/-! ## Taking apart and putting together -/

/-- Append row `i` of a column as the scalar that it is read as. -/
def Builder.addScalar (c : Column) (b : Builder) (i : Nat) : Attempt Builder :=
  match c.scalarAt i with
  | .ok s => b.fill s 1
  | .error f => .failed b (.fault f)

/-- Append all rows of a column as scalars. -/
def Builder.addScalars (b : Builder) (c : Column) : Attempt Builder :=
  .forEach (addScalar c) (List.range c.length) b

/-- A column made from the scalars of a column's rows, in a builder for `rows` rows. -/
def Column.rebuild (c : Column) (rows hint : Nat) : Logged Column := do
  let b ← Builder.reserve c.type rows hint
  let b ← .ofOutcome (b.addScalars c).toExcept
  .ofChecked b.finish

/-! ## Rows that scalars keep -/

theorem Utf8.encode_of_decode {bytes : Bytes} {s : String} (h : decode bytes = .ok s) :
    encode s = bytes := by
  rw [decode] at h
  cases hs : String.fromUTF8? ⟨bytes.toArray⟩ with
  | none =>
    rw [hs] at h
    cases h
  | some s' =>
    rw [hs] at h
    cases h
    rw [String.fromUTF8?] at hs
    split at hs
    · cases hs
      rfl
    · cases hs

namespace Row

/-- The row, or the blank one of the type in place of a null. -/
def cleared (type : DataType) (r : Row) : Row := if r.valid then r else blank type

theorem textBytes_cleared_le (type : DataType) (r : Row) :
    (r.cleared type).textBytes ≤ r.textBytes := by
  rw [cleared]
  split
  · exact Nat.le_refl _
  · cases type <;> simp [blank, textBytes, textBytesOf]

theorem cleared_eq_self {type : DataType} {r : Row} (h : r.valid = false → r = blank type) :
    r.cleared type = r := by
  rw [cleared]
  split
  · rfl
  · rename_i hnull
    exact (h (Bool.not_eq_true _ ▸ hnull)).symm

theorem elements_cleared_sublist (type : DataType) (r : Row) :
    (r.cleared type).elements.Sublist r.elements := by
  rw [cleared]
  split
  · exact .refl _
  · cases type <;> exact List.nil_sublist _

theorem textBytesOf_cleared_le (type : DataType) (rows : List Row) :
    textBytesOf (rows.map (cleared type)) ≤ textBytesOf rows := by
  induction rows with
  | nil => exact Nat.le_refl _
  | cons r rows ih => exact Nat.add_le_add (textBytes_cleared_le type r) ih

theorem textBytesOf_le_of_sublist {xs ys : List Row} (h : xs.Sublist ys) :
    textBytesOf xs ≤ textBytesOf ys := by
  induction h with
  | slnil => exact Nat.le_refl _
  | cons r _ ih => exact Nat.le_trans ih (Nat.le_add_left _ _)
  | cons_cons r _ ih => exact Nat.add_le_add_left ih _

end Row

theorem DataType.Room.of_sublist {type : DataType} {xs ys : List Row} (h : type.Room ys)
    (hsub : xs.Sublist ys) : type.Room xs := by
  induction type generalizing xs ys with
  | null | boolean | fixed => trivial
  | text t => exact Nat.le_trans (Row.textBytesOf_le_of_sublist hsub) h
  | list child ih =>
    have helements : (Row.elementsOf xs).Sublist (Row.elementsOf ys) := hsub.flatMap _
    exact ⟨Nat.le_trans helements.length_le h.1, ih h.2 helements⟩

/-- Where there is room for rows, there is room for them without what nulls store. -/
theorem DataType.Room.cleared {type : DataType} {rows : List Row} (h : type.Room rows) :
    type.Room (rows.map (Row.cleared type)) := by
  cases type with
  | null | boolean | fixed => trivial
  | text t => exact Nat.le_trans (Row.textBytesOf_cleared_le _ rows) h
  | list child =>
    have helements : (Row.elementsOf (rows.map (Row.cleared (.list child)))).Sublist
        (Row.elementsOf rows) := by
      rw [Row.elementsOf, List.flatMap_map]
      exact .flatMap_right rows fun r _ => r.elements_cleared_sublist _
    exact ⟨Nat.le_trans helements.length_le h.1, h.2.of_sublist helements⟩

namespace Scalar.Reads

variable {leaf : Option NullKind} {s : Scalar} {type : DataType} {r : Row}
  (h : s.Reads leaf type r)
include h

theorem type_eq : s.type = type := by
  cases h with
  | null => cases type <;> rfl
  | fixed | boolean | text | list => rfl

theorem wellFormed : s.WellFormed := by
  cases h with
  | null => cases type <;> trivial
  | fixed | boolean | text => trivial
  | list hc => exact hc.wellFormed

theorem agrees : s.Agrees := by
  cases h with
  | null => cases type <;> trivial
  | fixed | boolean | text => trivial
  | list => rfl

/-- A scalar stands for the row that it is read from, but for what a null stores. -/
theorem row_eq : s.row type = r.cleared type := by
  cases h with
  | null hnull =>
    rw [Row.cleared, hnull]
    cases type <;> rfl
  | fixed | boolean | list => rfl
  | text hs =>
    rw [Scalar.row, Utf8.encode_of_decode hs]
    rfl

end Scalar.Reads

/-! ## Rounds -/

namespace Column

variable {c : Column}

/-- The first `n` rows of the column, without what nulls store. -/
def clearedRows (c : Column) (n : Nat) : List Row :=
  (List.range n).map fun i => (c.row i).cleared c.type

/-- There is no memory for as many rows, or for their text. -/
def OutOfMemory (c : Column) : Prop :=
  ¬ c.type.Affords c.length ∨ addressableBytes < c.textLength

theorem clearedRows_succ (c : Column) (n : Nat) :
    c.clearedRows (n + 1) = c.clearedRows n ++ [(c.row n).cleared c.type] := by
  rw [clearedRows, List.range_succ, List.map_append, clearedRows]
  rfl

theorem clearedRows_eq (c : Column) (n : Nat) :
    c.clearedRows n = (c.rowsFrom 0 n).map (Row.cleared c.type) := by
  simp [clearedRows, rowsFrom]

theorem textBytesOf_clearedRows_le (hc : c.WellFormed) {n : Nat} (hn : n ≤ c.length) :
    Row.textBytesOf (c.clearedRows n) ≤ c.textLength := by
  rw [c.clearedRows_eq]
  exact Nat.le_trans (Row.textBytesOf_cleared_le c.type _)
    (textBytesOf_rowsFrom_le hc (by rwa [Nat.zero_add]))

theorem room_clearedRows (hc : c.WellFormed) {n : Nat} (hn : n ≤ c.length) :
    c.type.Room (c.clearedRows n) := by
  rw [c.clearedRows_eq]
  exact (room_rowsFrom hc (by rwa [Nat.zero_add])).cleared

end Column

namespace Builder

variable {c : Column} {b : Builder}

/-- The builder holds the first `n` rows of a column, without what nulls store. -/
def Rebuilds (c : Column) (n : Nat) (b : Builder) : Prop :=
  b.type = c.type ∧ b.Holds (c.clearedRows n)

/-- **One round** adds a row without what it stores under a null. -/
theorem Rebuilds.addScalar (hc : c.WellFormed) (hread : ∀ i < c.length, (c.row i).Readable)
    {i : Nat} (hi : i < c.length) (h : b.Rebuilds c i) :
    (addScalar c b i).Ends (Rebuilds c (i + 1))
      fun f => f = .fault .tooLarge ∧ c.OutOfMemory := by
  obtain ⟨htype, hb⟩ := h
  obtain ⟨s, hs, hreads⟩ := Column.scalarAt_reads hc hi (hread i hi)
  rw [← htype] at hreads
  have hfits : (Value.scalar s).Fits b.type := fun _ => hreads.type_eq
  rw [Builder.addScalar, hs]
  -- A round fails for want of memory only: for one row more, or for its text. All that it adds are
  -- rows of the column, which had room for them.
  by_cases hbulk : s.Bulk ∧ ¬ b.type.Affords (b.length + 1)
  · have hno : ¬ c.type.Affords c.length := by
      intro hafford
      apply hbulk.2
      rw [htype, hb.length_eq]
      exact hafford.mono (by simpa [Column.clearedRows] using Nat.succ_le_of_lt hi)
    have hfill := fill_of_not_affords hb hfits hbulk.1 (n := 1) (hb.length_eq ▸ hbulk.2)
    simp only [hfill]
    exact Attempt.ends_failed ⟨rfl, .inl hno⟩
  · have hadd := fill_adds_of_agrees hb hreads.wellFormed hfits hreads.agrees hbulk
    rw [hreads.row_eq, htype] at hadd
    refine Attempt.Ends.mono hadd ?_ ?_
    · rintro t ⟨httype, ht, -⟩
      exact ⟨httype.trans htype, c.clearedRows_succ i ▸ ht⟩
    · have hle := Column.textBytesOf_clearedRows_le hc (Nat.succ_le_of_lt hi)
      have hroom := Column.room_clearedRows hc (Nat.succ_le_of_lt hi)
      rw [c.clearedRows_succ i] at hle hroom
      rintro f (⟨-, hno⟩ | ⟨hf, -, hmem⟩)
      · exact absurd (htype ▸ hroom) hno
      · exact ⟨hf, .inr (Nat.lt_of_lt_of_le hmem hle)⟩

/-- **All rounds** add all rows. -/
theorem rebuilds_addScalars (hc : c.WellFormed) (hread : ∀ i < c.length, (c.row i).Readable)
    (h : b.Rebuilds c 0) :
    (b.addScalars c).Ends (Rebuilds c c.length)
      fun f => f = .fault .tooLarge ∧ c.OutOfMemory :=
  Attempt.ends_forEach_range (fun _ hi _ hs => hs.addScalar hc hread hi) h

end Builder

/-! ## The column that is made -/

namespace Column

variable {c out : Column}

theorem leafKind_of_concrete (h : c.type.Concrete) : c.leafKind = none := by
  induction c with
  | fixed | boolean | text => rfl
  | list r child ih => exact ih h
  | null => exact h.elim

/-- A column without what nulls store reads as the column does. -/
theorem scalarAt_of_clearedRows (hc : c.WellFormed) (hconcrete : c.type.Concrete)
    (hread : ∀ i < c.length, (c.row i).Readable) (hout : out.WellFormed)
    (htype : out.type = c.type) (hrows : out.rows = c.clearedRows c.length) {i : Nat}
    (hi : i < c.length) : ∃ s, c.scalarAt i = .ok s ∧ out.scalarAt i = .ok s := by
  obtain ⟨hlen, hrow⟩ := row_of_rows_eq hrows
  have hrow := hrow i hi
  have hi' : i < out.length := by rwa [hlen]
  cases hvalid : (c.row i).valid with
  | false =>
    have hnull : (out.row i).valid = false := by
      rw [hrow, Row.cleared, hvalid]
      exact Row.valid_blank _
    have hs := scalarAt_of_null hout hi' hnull
    rw [htype] at hs
    exact ⟨_, scalarAt_of_null hc hi hvalid, hs⟩
  | true =>
    have hsame : c.row i = out.row i := by rw [hrow, Row.cleared, if_pos hvalid]
    have hleaf : c.leafKind = out.leafKind := by
      rw [leafKind_of_concrete hconcrete, leafKind_of_concrete (htype ▸ hconcrete)]
    exact scalarAt_congr hc hout hi hi' htype.symm hleaf hsame (hread i hi)

/-- **A column comes back from its scalars.** Where all valid text is UTF-8, the scalars of a column
of a concrete type are all read. Once a builder for the type is had, it takes them all, short of
more rows or text than there is memory for, and finishes with a canonical column that reads as the
other one does, row by row. If nothing is stored under the nulls of that, what is made is its copy,
buffer by buffer. -/
theorem rebuild_spec (hc : c.WellFormed) (hconcrete : c.type.Concrete)
    (hread : ∀ i < c.length, (c.row i).Readable) (rows hint : Nat) :
    (∃ f, (Builder.reserve c.type rows hint).outcome = .error f ∧ f.IsAllocation ∧
        (c.rebuild rows hint).outcome = .error f) ∨
      ((c.rebuild rows hint).outcome = .error (.fault .tooLarge) ∧ c.OutOfMemory) ∨
      ∃ out, (c.rebuild rows hint).outcome = .ok out ∧ out.Canonical ∧ out.type = c.type ∧
        out.length = c.length ∧
        (∀ i < c.length, ∃ s, c.scalarAt i = .ok s ∧ out.scalarAt i = .ok s) ∧
        ((∀ i < c.length, (c.row i).valid = false → c.row i = .blank c.type) →
          c.slice 0 c.length = .ok out) := by
  rcases Builder.reserve_spec c.type rows hint with ⟨b, hb, htype, hholds, -⟩ | ⟨f, hf, hcause⟩
  · right
    have hrun : (c.rebuild rows hint).outcome =
        (b.addScalars c).toExcept >>= fun s => s.finish.lift := by
      rw [rebuild, Logged.outcome_bind_of_ok hb, Logged.outcome_bind]
      rfl
    rcases (Builder.rebuilds_addScalars hc hread ⟨htype, hholds⟩).toExcept with
      ⟨s, hs, hstype, hsholds⟩ | ⟨f, hf, rfl, hmem⟩
    · obtain ⟨out, hout, hcanonical, houttype, hrows⟩ := hsholds.finish
      have htype : out.type = c.type := houttype.trans hstype
      rw [hs, ok_bind, hout] at hrun
      refine .inr ⟨out, hrun, hcanonical, htype, (row_of_rows_eq hrows).1,
        fun i hi => scalarAt_of_clearedRows hc hconcrete hread hcanonical.wellFormed htype hrows hi,
        ?_⟩
      intro hblank
      obtain ⟨d, hd, hdcanonical, hdtype, hdrows⟩ := slice_spec hc (Nat.le_of_eq (Nat.zero_add _))
      have hsame : out.rows = d.rows := by
        rw [hrows, hdrows, ← rows_eq_rowsFrom]
        exact map_range_congr fun i hi => Row.cleared_eq_self (hblank i hi)
      -- Nothing was cleared, so both are canonical columns of the same rows.
      rw [hcanonical.ext (htype ▸ hconcrete) hdcanonical (htype.trans hdtype.symm) hsame]
      exact hd
    · rw [hf] at hrun
      exact .inl ⟨hrun, hmem⟩
  · have halloc := hcause.resolve_right fun h => h.1 hconcrete
    exact .inl ⟨f, hf, halloc, Logged.outcome_bind_of_error hf _⟩

/-- Three lists of texts, the second of them null, out of a child with a spare element at either
end. -/
def spareLists : Column :=
  list ⟨[1, 3, 3, 4], some (.ofList [true, false, true])⟩
    (text .string ⟨[0, 1, 2, 3, 4, 5], [98, 97, 99, 100, 101], none⟩)

theorem rebuild_spec_spareLists : ∃ out, (spareLists.rebuild 1 0).outcome = .ok out ∧
    spareLists.slice 0 3 = .ok out := by
  have hblank : ∀ i < spareLists.length, (spareLists.row i).valid = false →
      spareLists.row i = .blank spareLists.type := by
    intro i hi hnull
    obtain rfl | rfl | rfl : i = 0 ∨ i = 1 ∨ i = 2 := by
      have hlt : i < 3 := hi
      omega
    · cases hnull
    · rfl
    · cases hnull
  rcases rebuild_spec (c := spareLists) (by decide) trivial (fun _ _ => trivial) 1 0 with
    ⟨f, hf, -⟩ | ⟨-, hrows | htext⟩ | ⟨out, hout, -, -, -, -, hsame⟩
  · cases hf
  · exact absurd (show (3 + 1) * (32 / 8) ≤ addressableBytes by decide) hrows
  · exact absurd htext (by decide)
  · exact ⟨out, hout, hsame hblank⟩

end Column

end Columnar
