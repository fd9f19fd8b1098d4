import Columnar.Proofs.Column.Slice

/-!
# Views and the values of their rows

A view of a view is a view of the column: slicing adds offsets up and copies nothing, however often
it is done. A copy does change what is stored, since offsets start over, children are cut and masks
without a null are dropped, but the values of the rows are the same, because **a value is read off
the row alone**. So a chain of views ends where one copy of the accumulated range does, and its rows
read there as in the column.
-/

namespace Columnar

/-! ## Values of rows -/

/-- The row has a value: text that is not null is UTF-8. -/
def Row.Readable : Row → Prop
  | text true bytes => ∃ s, Utf8.decode bytes = .ok s
  | _ => True

namespace Scalar

/-- The null of a type. -/
def nullOf : DataType → Scalar
  | .null => null
  | .boolean => boolean none
  | .fixed t => fixed t none
  | .text t => text t none
  | .list child => list child none

/-- The scalar is the value of a row of a type. The elements of a list are a canonical column, whose
column of the null type, if there is one inside, has the name `leaf`. -/
inductive Reads (leaf : Option NullKind) : Scalar → DataType → Row → Prop
  | null {type : DataType} {r : Row} (h : r.valid = false) : Reads leaf (nullOf type) type r
  | fixed {t : FixedType} (x : t.Slot) :
    Reads leaf (.fixed t (some x)) (.fixed t) (.fixed t true x)
  | boolean (b : Bool) : Reads leaf (.boolean (some b)) .boolean (.boolean true b)
  | text {t : TextType} {bytes : Bytes} {s : String} (h : Utf8.decode bytes = .ok s) :
    Reads leaf (.text t (some s)) (.text t) (.text true bytes)
  | list {c : Column} (hc : c.Canonical) (hleaf : c.leafKind = leaf) :
    Reads leaf (.list c.type (some c)) (.list c.type) (.list true c.rows)

/-- **A row has one value.** -/
theorem Reads.unique {leaf : Option NullKind} {s s' : Scalar} {type : DataType} {r : Row}
    (h : s.Reads leaf type r) (h' : s'.Reads leaf type r) : s = s' := by
  cases h with
  | null hnull =>
    cases h' with
    | null => rfl
    | fixed | boolean | text | list => cases hnull
  | fixed x =>
    cases h' with
    | null hnull => cases hnull
    | fixed => rfl
  | boolean b =>
    cases h' with
    | null hnull => cases hnull
    | boolean => rfl
  | text hs =>
    cases h' with
    | null hnull => cases hnull
    | text hs' =>
      cases hs.symm.trans hs'
      rfl
  | list hc hleaf =>
    -- The row and the type are made from the column, and a case of `h'` gives another column.
    generalize hrow : Row.list true _ = r at h'
    generalize htype : DataType.list _ = type at h'
    cases h' with
    | null hnull =>
      subst hrow
      cases hnull
    | list hc' hleaf' =>
      injection htype with htype
      injection hrow with _ hrows
      rw [hc.ext_of_leafKind hc' htype (hleaf.trans hleaf'.symm) hrows]
    | _ => cases htype

end Scalar

namespace Column

variable {i : Nat}

theorem scalarAt_of_null {c : Column} (hc : c.WellFormed) (hi : i < c.length)
    (hnull : (c.row i).valid = false) : c.scalarAt i = .ok (.nullOf c.type) := by
  have hcovers := hc.covers
  rw [valid_row_of_lt hi] at hnull
  have hisNull : c.validity.isNull i = .ok true := by
    rw [Validity.isNull_eq hcovers hi, hnull]
    rfl
  cases c with
  | fixed t c =>
    have h : c.validity.isNull i = .ok true := hisNull
    simp [scalarAt, FixedColumn.get, h, Scalar.nullOf, type, bind, Except.bind, pure, Except.pure]
  | boolean c =>
    have h : c.validity.isNull i = .ok true := hisNull
    have hlt : i < c.length := hi
    simp [scalarAt, BooleanColumn.get, hlt, h, Scalar.nullOf, type, bind, Except.bind, pure,
      Except.pure]
  | text t c =>
    have h : c.validity.isNull i = .ok true := hisNull
    simp [scalarAt, TextColumn.get, h, Scalar.nullOf, type, bind, Except.bind, pure, Except.pure]
  | list r child =>
    have h : r.validity.isNull i = .ok true := hisNull
    simp [scalarAt, listView, h, Scalar.nullOf, type, bind, Except.bind, pure, Except.pure]
  | null kind => rfl

/-- The elements of a valid row of a list column are read as a canonical column of their own. -/
theorem scalarAt_list {r : ListRows} {child : Column} (hc : (list r child).WellFormed)
    (hi : i < r.length) (hvalid : r.validity.bit i = true) :
    ∃ part, (list r child).scalarAt i = .ok (.list child.type (some part)) ∧ part.Canonical ∧
      part.leafKind = child.leafKind ∧ part.type = child.type ∧
      part.rows = r.offsets.part child.rows i := by
  obtain ⟨hascend, hcovers, hchild⟩ := hc
  have hrow : i + 1 ≤ r.offsets.rows := hi
  have hin : (r.offsets.offsetAt i).toNat + r.offsets.payload i 1 ≤ child.length := by
    rw [hascend.start_add_payload hrow]
    exact hascend.le_limit hrow
  obtain ⟨part, hpart, hcanonical, htype, hrows⟩ := slice_spec hchild hin
  rw [rowsFrom_eq child hin] at hrows
  refine ⟨part, ?_, hcanonical, leafKind_slice hpart, htype, hrows⟩
  simp [scalarAt, listView, Validity.isNull_eq hcovers hi, hvalid, hascend.place_eq hi, View.of,
    hin, View.toColumn, hpart, bind, Except.bind, pure, Except.pure]

/-- **A well-formed column gives the value of each row that has one.** -/
theorem scalarAt_reads {c : Column} (hc : c.WellFormed) (hi : i < c.length)
    (hread : (c.row i).Readable) :
    ∃ s, c.scalarAt i = .ok s ∧ s.Reads c.leafKind c.type (c.row i) := by
  cases hvalid : (c.row i).valid with
  | false => exact ⟨_, scalarAt_of_null hc hi hvalid, .null hvalid⟩
  | true =>
    rw [valid_row_of_lt hi] at hvalid
    cases c with
    | fixed t c =>
      have hbit : c.validity.bit i = true := hvalid
      refine ⟨.fixed t (some (c.slots.getD i 0)), ?_, ?_⟩
      · rw [scalarAt, FixedColumn.get_eq hc hi, if_pos hbit]
        rfl
      · rw [row, hbit]
        exact .fixed _
    | boolean c =>
      have hbit : c.validity.bit i = true := hvalid
      refine ⟨.boolean (some (c.values.bit i)), ?_, ?_⟩
      · rw [scalarAt, BooleanColumn.get_eq hc hi, if_pos hbit]
        rfl
      · rw [row, hbit]
        exact .boolean _
    | text t c =>
      have hbit : c.validity.bit i = true := hvalid
      -- Only a text can be there and not be read: its bytes need not be UTF-8.
      rw [row, hbit] at hread ⊢
      obtain ⟨s, hs⟩ := hread
      refine ⟨.text t (some s), ?_, .text hs⟩
      simp [scalarAt, TextColumn.get, TextColumn.textAt, Validity.isNull_eq hc.2 hi, hbit,
        TextColumn.bytesAt_eq hc.1 hi, hs, bind, Except.bind, pure, Except.pure]
    | list r child =>
      have hbit : r.validity.bit i = true := hvalid
      -- The value of a list row is a slice of the child, so no induction is needed.
      obtain ⟨part, hpart, hcanonical, hleaf, htype, hrows⟩ := scalarAt_list hc hi hbit
      have hreads := Scalar.Reads.list hcanonical hleaf
      rw [htype, hrows] at hreads
      refine ⟨_, hpart, ?_⟩
      rw [row, hbit]
      exact hreads
    | null kind => exact absurd hi (Nat.not_lt_zero i)

/-- **Rows that are the same have the same value** in well-formed columns of one type. -/
theorem scalarAt_congr {c d : Column} {j : Nat} (hc : c.WellFormed) (hd : d.WellFormed)
    (hi : i < c.length) (hj : j < d.length) (htype : c.type = d.type)
    (hleaf : c.leafKind = d.leafKind) (hrow : c.row i = d.row j) (hread : (c.row i).Readable) :
    ∃ s, c.scalarAt i = .ok s ∧ d.scalarAt j = .ok s := by
  obtain ⟨s, hs, hreads⟩ := scalarAt_reads hc hi hread
  obtain ⟨s', hs', hreads'⟩ := scalarAt_reads hd hj (hrow ▸ hread)
  rw [← htype, ← hleaf, ← hrow] at hreads'
  exact ⟨s, hs, hreads.unique hreads' ▸ hs'⟩

end Column

/-! ## Views of views -/

/-- Slices that are taken of a view one after the other: where each starts in the view before it,
and how many rows it keeps. -/
abbrev Slices := List (Nat × Nat)

namespace Slices

/-- Each slice is within the rows that the ones before it leave of `rows`. -/
def Fit (rows : Nat) : Slices → Prop
  | [] => True
  | (offset, len) :: rest => offset + len ≤ rows ∧ Fit len rest

/-- The rows that are left out in front. -/
def skipped : Slices → Nat
  | [] => 0
  | (offset, _) :: rest => offset + skipped rest

/-- The rows that are left of `rows`. -/
def left (rows : Nat) : Slices → Nat
  | [] => rows
  | (_, len) :: rest => left len rest

instance decidableFit (rows : Nat) : (steps : Slices) → Decidable (Fit rows steps)
  | [] => .isTrue trivial
  | (offset, len) :: rest =>
    have := decidableFit len rest
    inferInstanceAs (Decidable (offset + len ≤ rows ∧ Fit len rest))

end Slices

namespace View

/-- The view that slices leave, taken one after the other. -/
def sliceEach (v : View) : Slices → Checked View
  | [] => .ok v
  | (offset, len) :: rest => do (← v.slice offset len).sliceEach rest

/-- **Slices in a row are one window** of the column. -/
theorem sliceEach_eq {v : View} {steps : Slices} (h : steps.Fit v.len) :
    ∃ w, v.sliceEach steps = .ok w ∧ w.column = v.column ∧
      w.offset = v.offset + steps.skipped ∧ w.len = steps.left v.len := by
  induction steps generalizing v with
  | nil => exact ⟨v, rfl, rfl, rfl, rfl⟩
  | cons step rest ih =>
    obtain ⟨offset, len⟩ := step
    obtain ⟨hin, hrest⟩ := h
    have hrange : v.offset + offset + len ≤ v.column.length := by
      have := v.in_bounds
      omega
    have hslice : v.slice offset len = .ok ⟨v.column, v.offset + offset, len, hrange⟩ := dif_pos hin
    obtain ⟨w, hw, hcolumn, hoffset, hlen⟩ := ih (v := ⟨v.column, v.offset + offset, len, hrange⟩)
      hrest
    refine ⟨w, ?_, hcolumn, ?_, hlen⟩
    · rw [sliceEach, hslice]
      exact hw
    · rw [hoffset, Slices.skipped, Nat.add_assoc]

/-- **A view counts the rows that it calls null.** -/
theorem nullCount_eq_countP {v : View} (hv : v.column.WellFormed) :
    v.nullCount = (List.range v.len).countP fun i => v.isNull i matches .ok true := by
  rw [nullCount_eq, rows, List.countP_map]
  apply List.countP_congr
  intro i hi
  rw [isNull_eq hv (List.mem_range.1 hi), Function.comp_apply]
  cases (v.row i).valid <;> decide

/-- **A view tells of its rows what its copy tells**: which are null, and their values. -/
theorem toColumn_agrees {v : View} (hv : v.column.WellFormed) :
    ∃ d, v.toColumn = .ok d ∧ ∀ i < v.len,
      (∃ null, v.isNull i = .ok null ∧ d.isNull i = .ok null) ∧
      ((v.row i).Readable → ∃ s, v.scalarAt i = .ok s ∧ d.scalarAt i = .ok s) := by
  obtain ⟨d, hd, hcanonical, htype, hrows⟩ := Column.slice_spec hv v.in_bounds
  refine ⟨d, hd, fun i hi => ?_⟩
  have hbounds := v.in_bounds
  have hcolumn : v.offset + i < v.column.length := by omega
  have hcopy : i < d.length := by rwa [(Column.row_of_rows_eq hrows).1]
  have hrow : v.row i = d.row i := (Column.row_of_rows_eq_rowsFrom hrows hi).symm
  refine ⟨⟨_, isNull_eq hv hi, ?_⟩, fun hread => ?_⟩
  · rw [Column.isNull_eq hcanonical.wellFormed hcopy, hrow]
  · rw [scalarAt, Checked.require_of hi, ok_bind]
    exact Column.scalarAt_congr hv hcanonical.wellFormed hcolumn hcopy htype.symm
      (Column.leafKind_slice hd).symm hrow hread

/-- **Slicing composes.** A copy of rows of a copy is the copy of these rows of the column, buffer
by buffer. Slices of a view, as many as there may be, leave the window at the accumulated offset:
its copy is the column's copy of the range, it counts the rows that it calls null, its copy calls
the same rows null, and a row that has a value has the same one in the view, in the copy and in the
column. -/
theorem slices_compose {c : Column} {offset len : Nat} (hc : c.WellFormed)
    (hr : offset + len ≤ c.length) :
    (∀ m n, m + n ≤ len → ∃ part d, c.slice offset len = .ok part ∧ part.slice m n = .ok d ∧
      c.slice (offset + m) n = .ok d) ∧
    ∀ steps : Slices, steps.Fit len → ∃ v d,
      (View.of c offset len >>= fun v => v.sliceEach steps) = .ok v ∧ v.len = steps.left len ∧
      v.toColumn = .ok d ∧ c.slice (offset + steps.skipped) (steps.left len) = .ok d ∧
      v.nullCount = (List.range v.len).countP (fun i => v.isNull i matches .ok true) ∧
      ∀ i < v.len, (∃ null, v.isNull i = .ok null ∧ d.isNull i = .ok null) ∧
        ((c.row (offset + steps.skipped + i)).Readable → ∃ s, v.scalarAt i = .ok s ∧
          d.scalarAt i = .ok s ∧ c.scalarAt (offset + steps.skipped + i) = .ok s) := by
  refine ⟨fun m n hin => Column.slice_slice hc hr hin, fun steps hsteps => ?_⟩
  obtain ⟨v, hv, hcolumn, hoffset, hlen⟩ :=
    sliceEach_eq (v := ⟨c, offset, len, hr⟩) hsteps
  simp only at hcolumn hoffset hlen
  have hwell : v.column.WellFormed := hcolumn ▸ hc
  obtain ⟨d, hd, hagrees⟩ := toColumn_agrees hwell
  have hslice : c.slice (offset + steps.skipped) (steps.left len) = .ok d := by
    rw [← hcolumn, ← hoffset, ← hlen]
    exact hd
  refine ⟨v, d, ?_, hlen, hd, hslice, nullCount_eq_countP hwell, fun i hi => ?_⟩
  · rw [View.of, dif_pos hr]
    exact hv
  · obtain ⟨hnull, hvalue⟩ := hagrees i hi
    refine ⟨hnull, fun hread => ?_⟩
    have hrow : v.row i = c.row (offset + steps.skipped + i) := by
      rw [row, hcolumn, hoffset]
    obtain ⟨s, hs, hs'⟩ := hvalue (hrow ▸ hread)
    refine ⟨s, hs, hs', ?_⟩
    rw [← hs, scalarAt, Checked.require_of hi, ok_bind, hcolumn, hoffset]

/-- The last two of three lists, reached in two steps, the second of them null over two elements:
the copy starts its offsets over, leaves out the spare elements, and keeps the mask. -/
theorem slices_compose_lists :
    ∃ v d, (View.of (.list ⟨[1, 1, 2, 4], some (.ofList [true, true, false])⟩
        (.text .string ⟨[0, 1, 2, 3, 4, 5], [98, 97, 99, 100, 101], none⟩)) 0 3 >>=
          fun v => v.sliceEach [(0, 3), (1, 2)]) = .ok v ∧
      v.toColumn = .ok d ∧ d = .list ⟨[0, 1, 3], some (.ofList [true, false])⟩
        (.text .string ⟨[0, 1, 2, 3], [97, 99, 100], none⟩) ∧
      v.nullCount = (List.range v.len).countP (fun i => v.isNull i matches .ok true) ∧
      ∃ s, v.scalarAt 0 = .ok s ∧ d.scalarAt 0 = .ok s := by
  obtain ⟨v, d, hv, hlen, hd, hslice, hcount, hrows⟩ :=
    (slices_compose (c := .list ⟨[1, 1, 2, 4], some (.ofList [true, true, false])⟩
      (.text .string ⟨[0, 1, 2, 3, 4, 5], [98, 97, 99, 100, 101], none⟩))
      (by decide) (show 0 + 3 ≤ 3 by decide)).2 [(0, 3), (1, 2)] (by decide)
  obtain ⟨s, hs, hs', -⟩ := (hrows 0 (hlen ▸ (by decide))).2 trivial
  refine ⟨v, d, hv, hd, ?_, hcount, s, hs, hs'⟩
  cases hslice
  rfl

end View

end Columnar
