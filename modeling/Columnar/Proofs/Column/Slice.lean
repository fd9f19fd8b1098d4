import Columnar.Proofs.Column.Rows

/-!
# Copies of a range of rows

A copy of rows of a well-formed column is there, has its source's type, and is the **canonical**
column of these rows: bytes and child elements before and after them are left behind, offsets start
over at zero, and a mask without a null is dropped. So whatever else makes a canonical column of the
same rows makes the same column.
-/

namespace Columnar

/-- The validity of a range of rows, in a mask of its own if one of them is null. -/
theorem Validity.slice_spec {v : Validity} {rows offset len : Nat} (hv : v.Covers rows)
    (hr : offset + len ≤ rows) :
    ∃ u, v.slice offset len = .ok u ∧ u.Canonical len ∧ u.bits 0 len = v.bits offset len := by
  cases v with
  | none => exact ⟨none, rfl, trivial, by rw [bits_none, bits_none]⟩
  | some m =>
    have hin : offset + len ≤ m.len := Nat.le_trans hr (Nat.le_of_eq hv.symm)
    -- Counting ones tells whether there is a null, and a mask is made only then.
    by_cases hnull : false ∈ (Window.mk m offset len).toList
    · have hones := Window.countOnes_ne_len.2 hnull
      have hlen : (Bitmask.ofWindow ⟨m, offset, len⟩).len = len := Bitmask.len_ofWindow _
      rw [← Bitmask.toList_ofWindow] at hnull
      have hcanonical := canonical_mask (Bitmask.tight_ofWindow _) hnull
      rw [hlen] at hcanonical
      refine ⟨some (.ofWindow ⟨m, offset, len⟩), ?_, hcanonical, ?_⟩
      · rw [slice, if_neg hones, Bitmask.slice_eq hin]
        rfl
      · have hbits := bits_whole (.ofWindow ⟨m, offset, len⟩)
        rw [hlen, Bitmask.toList_ofWindow] at hbits
        exact hbits.trans (bits_window m offset len).symm
    · have hones := Decidable.of_not_not (mt Window.countOnes_ne_len.1 hnull)
      refine ⟨none, if_pos hones, trivial, ?_⟩
      rw [bits_none, bits_window, eq_replicate_of_no_null hnull, Window.length_toList]

namespace Column

variable {offset len : Nat}

theorem slice_fixed {t : FixedType} {c : FixedColumn t} (hc : (fixed t c).WellFormed)
    (hr : offset + len ≤ c.length) :
    ∃ d, c.slice offset len = .ok d ∧ (fixed t d).Canonical ∧
      (fixed t d).rows = (fixed t c).rowsFrom offset len := by
  obtain ⟨u, hu, hcanonical, hbits⟩ := Validity.slice_spec hc hr
  have hslots : ((c.slots.drop offset).take len).length = len := by
    have hin : offset + len ≤ c.slots.length := hr
    rw [List.length_take, List.length_drop]
    omega
  refine ⟨⟨(c.slots.drop offset).take len, u⟩, ?_, ?_⟩
  · simp [FixedColumn.slice, Checked.requireRange, hr, hu, bind, Except.bind, pure, Except.pure]
  · rw [rowsFrom_fixed c hr]
    exact whole_fixed (by rwa [hslots]) (by rwa [hslots])

theorem slice_boolean {c : BooleanColumn} (hc : (boolean c).WellFormed)
    (hr : offset + len ≤ c.length) :
    ∃ d, c.slice offset len = .ok d ∧ (boolean d).Canonical ∧
      (boolean d).rows = (boolean c).rowsFrom offset len := by
  obtain ⟨u, hu, hcanonical, hbits⟩ := Validity.slice_spec hc hr
  have hlen : (Bitmask.ofWindow (c.window offset len)).len = len := Bitmask.len_ofWindow _
  refine ⟨⟨.ofWindow (c.window offset len), u⟩, ?_, ?_⟩
  · have hvalues := Bitmask.slice_eq (m := c.values) hr
    simp [BooleanColumn.slice, Checked.requireRange, hr, hvalues, hu, bind, Except.bind, pure,
      Except.pure, BooleanColumn.window]
  · rw [rowsFrom_boolean, ← Bitmask.toList_ofWindow]
    exact whole_boolean (Bitmask.tight_ofWindow _) (by rwa [hlen]) (by rwa [hlen])

theorem slice_text {t : TextType} {c : TextColumn t} (hc : (text t c).WellFormed)
    (hr : offset + len ≤ c.length) :
    ∃ d, c.slice offset len = .ok d ∧ (text t d).Canonical ∧
      (text t d).rows = (text t c).rowsFrom offset len := by
  obtain ⟨hascend, hcovers⟩ := hc
  obtain ⟨u, hu, hcanonical, hbits⟩ := Validity.slice_spec hcovers hr
  have hlen := Offsets.length_partsFrom c.offsets c.bytes offset len
  refine ⟨⟨c.offsets.slice offset len, (c.offsets.partsFrom c.bytes offset len).flatten, u⟩, ?_, ?_⟩
  · simp [TextColumn.slice, Checked.requireRange, hr, hascend.extent_eq hr,
      hascend.bufferPart_eq hr, hu, bind, Except.bind, pure, Except.pure]
  · rw [rowsFrom_text]
    exact whole_text (hascend.cuts_slice hr) (by rwa [hlen]) (by rwa [hlen])

/-- **A copy of rows of a well-formed column** is the canonical column of the rows. -/
theorem slice_spec {c : Column} (hc : c.WellFormed) (hr : offset + len ≤ c.length) :
    ∃ d, c.slice offset len = .ok d ∧ d.Canonical ∧ d.type = c.type ∧
      d.rows = c.rowsFrom offset len := by
  induction c generalizing offset len with
  | fixed t c =>
    obtain ⟨d, hd, hcanonical, hrows⟩ := slice_fixed hc hr
    exact ⟨fixed t d, by simp [slice, hd, bind, Except.bind, pure, Except.pure], hcanonical, rfl,
      hrows⟩
  | boolean c =>
    obtain ⟨d, hd, hcanonical, hrows⟩ := slice_boolean hc hr
    exact ⟨boolean d, by simp [slice, hd, bind, Except.bind, pure, Except.pure], hcanonical, rfl,
      hrows⟩
  | text t c =>
    obtain ⟨d, hd, hcanonical, hrows⟩ := slice_text hc hr
    exact ⟨text t d, by simp [slice, hd, bind, Except.bind, pure, Except.pure], hcanonical, rfl,
      hrows⟩
  | list r child ih =>
    obtain ⟨hascend, hcovers, hchild⟩ := hc
    obtain ⟨u, hu, hcanonical, hbits⟩ := Validity.slice_spec hcovers hr
    have hstart := hascend.start_add_payload hr
    have hlimit := hascend.le_limit hr
    have hin : (r.offsets.offsetAt offset).toNat + r.offsets.payload offset len ≤ child.length := by
      omega
    -- The child is cut from where the first list starts to where the last one ends.
    obtain ⟨part, hpart, hpartCanonical, htype, hpartRows⟩ := ih hchild hin
    have hrows : child.rows.length = child.length := child.length_rows
    rw [← hrows] at hascend
    have hlen := Offsets.length_partsFrom r.offsets child.rows offset len
    rw [rowsFrom_eq child hin, ← hascend.flatten_partsFrom hr] at hpartRows
    refine ⟨list ⟨r.offsets.slice offset len, u⟩ part, ?_, ?_⟩
    · have hsub := hascend.toNat_sub hr
      have hr' : offset + len ≤ r.length := hr
      simp [slice, Checked.requireRange, hr', hascend.extent_eq hr, hsub, hpart, hu, bind,
        Except.bind, pure, Except.pure]
    · rw [rowsFrom_list]
      rw [← hlen] at hcanonical
      have hlistBits : u.bits 0 (r.offsets.partsFrom child.rows offset len).length =
          r.validity.bits offset len := by rw [hlen, hbits]
      obtain ⟨hlist, hlistRows⟩ :=
        whole_list (hascend.cuts_slice hr) hcanonical hlistBits hpartCanonical hpartRows
      exact ⟨hlist, by rw [type, type, htype], hlistRows⟩
  | null kind =>
    obtain rfl : len = 0 := Nat.eq_zero_of_le_zero (Nat.le_trans (Nat.le_add_left _ _) hr)
    exact ⟨null kind, rfl, trivial, rfl, rfl⟩

theorem leafKind_slice {c d : Column} (h : c.slice offset len = .ok d) :
    d.leafKind = c.leafKind := by
  induction c generalizing offset len d with
  | list rows child ih =>
    simp only [slice, bind_eq_ok, pure, Except.pure, Except.ok.injEq] at h
    obtain ⟨_, _, _, _, part, hpart, _, _, rfl⟩ := h
    simp only [leafKind, ih hpart]
  | null kind =>
    cases h
    rfl
  | fixed | boolean | text =>
    simp only [slice, bind_eq_ok, pure, Except.pure, Except.ok.injEq] at h
    obtain ⟨-, -, rfl⟩ := h
    rfl

/-- **A copy of rows of a copy** is the copy of these rows of the source, name and all. -/
theorem slice_slice {c : Column} {m n : Nat} (hc : c.WellFormed) (hr : offset + len ≤ c.length)
    (hin : m + n ≤ len) :
    ∃ part d, c.slice offset len = .ok part ∧ part.slice m n = .ok d ∧
      c.slice (offset + m) n = .ok d := by
  obtain ⟨part, hpart, hpartCanonical, hpartType, hpartRows⟩ := slice_spec hc hr
  have hpartRange : m + n ≤ part.length := by
    rwa [(row_of_rows_eq hpartRows).1]
  have hrange : offset + m + n ≤ c.length := by omega
  obtain ⟨d, hd, hcanonical, htype, hrows⟩ := slice_spec hpartCanonical.wellFormed hpartRange
  obtain ⟨e, he, hcanonical', htype', hrows'⟩ := slice_spec hc hrange
  -- Both copies are canonical, so their rows and the name of their leaf decide.
  have hsame : part.rowsFrom m n = c.rowsFrom (offset + m) n := by
    apply map_range_congr
    intro j hj
    rw [row_of_rows_eq_rowsFrom hpartRows (show m + j < len by omega), Nat.add_assoc]
  have hleaf : d.leafKind = e.leafKind := by
    rw [leafKind_slice hd, leafKind_slice hpart, leafKind_slice he]
  have heq : d = e := hcanonical.ext_of_leafKind hcanonical'
    (by rw [htype, hpartType, htype']) hleaf (by rw [hrows, hsame, hrows'])
  exact ⟨part, d, hpart, hd, heq ▸ he⟩

end Column

end Columnar
