import Columnar.Proofs.Column.Slice

/-!
# Columns that keep lists

A column of one value per row **keeps** a list of optional values if its buffers hold the values one
by one, with the default of the type under each null, and its validity tells the nulls. The validity
grows late: the first null makes a mask of all the rows before it, and a part of the rows without a
null drops it again. Pushed rows and copied parts are kept all the same, in each of the three
storages.
-/

namespace Columnar

/-! ## Validity -/

namespace Validity

/-- The validity has the bits. Without a mask all of them are set, and a mask is tight. -/
def Keeps (v : Validity) (bits : List Bool) : Prop :=
  match v with
  | none => false ∉ bits
  | some m => m.Tight ∧ m.toList = bits

theorem keeps_empty (masked : Bool) : Keeps (if masked then some .empty else none) [] := by
  cases masked with
  | false => exact List.not_mem_nil
  | true => exact ⟨Bitmask.tight_empty, rfl⟩

theorem keeps_none (n : Nat) : Keeps none (List.replicate n true) := by
  intro hmem
  cases List.eq_of_mem_replicate hmem

theorem keeps_none_of_valid {α : Type} (values : List α) :
    Keeps none ((values.map some).map Option.isSome) := by
  have hbits : (values.map some).map Option.isSome = List.replicate values.length true := by
    simp [List.eq_replicate_iff]
  rw [hbits]
  exact keeps_none _

theorem Canonical.keeps {v : Validity} {rows : Nat} (h : v.Canonical rows) :
    v.Keeps (v.bits 0 rows) := by
  cases v with
  | none =>
    rw [bits_none]
    exact keeps_none rows
  | some m =>
    obtain ⟨rfl, htight, -⟩ := h
    exact ⟨htight, (bits_whole m).symm⟩

theorem keeps_ofList (bits : List Bool) : (ofList bits).Keeps bits := by
  obtain ⟨hcanonical, hbits⟩ := ofList_spec bits
  have hkeeps := hcanonical.keeps
  rwa [hbits] at hkeeps

variable {v : Validity} {bits : List Bool}

theorem Keeps.bits_eq (h : v.Keeps bits) : v.bits 0 bits.length = bits := by
  cases v with
  | none => rw [bits_none, ← eq_replicate_of_no_null h]
  | some m =>
    obtain ⟨-, rfl⟩ := h
    rw [Bitmask.length_toList, bits_whole]

theorem Keeps.covers (h : v.Keeps bits) : v.Covers bits.length := by
  cases v with
  | none => trivial
  | some m =>
    obtain ⟨-, rfl⟩ := h
    exact m.length_toList.symm

theorem Keeps.bit_eq (h : v.Keeps bits) {i : Nat} (hi : i < bits.length) : v.bit i = bits[i] := by
  have hget := congrArg (·[i]?) h.bits_eq
  simpa [Validity.bits, hi] using hget

theorem Keeps.nullCount_eq (h : v.Keeps bits) : v.nullCount = bits.count false := by
  cases v with
  | none => exact (List.count_eq_zero.2 h).symm
  | some m =>
    obtain ⟨-, rfl⟩ := h
    exact (Window.countZeros_eq m.whole).trans (by rw [Bitmask.toList_whole])

theorem Keeps.pushValid (h : v.Keeps bits) : v.pushValid.Keeps (bits ++ [true]) := by
  cases v with
  | none =>
    intro hmem
    rcases List.mem_append.1 hmem with hmem | hmem
    · exact h hmem
    · cases List.mem_singleton.1 hmem
  | some m =>
    obtain ⟨htight, rfl⟩ := h
    exact ⟨htight.clean.push true, htight.clean.toList_push true⟩

theorem Keeps.pushNull (h : v.Keeps bits) {rows : Nat} (hrows : rows = bits.length) :
    (v.pushNull rows).Keeps (bits ++ [false]) := by
  subst hrows
  cases v with
  | none =>
    have htight := Bitmask.tight_filled bits.length true
    refine ⟨htight.clean.push false, ?_⟩
    rw [Option.getD_none, htight.clean.toList_push, Bitmask.toList_filled,
      ← eq_replicate_of_no_null h]
  | some m =>
    obtain ⟨htight, rfl⟩ := h
    exact ⟨htight.clean.push false, htight.clean.toList_push false⟩

theorem Keeps.slice (h : v.Keeps bits) {offset len : Nat} (hr : offset + len ≤ bits.length) :
    ∃ u, v.slice offset len = .ok u ∧ u.Keeps ((bits.drop offset).take len) := by
  obtain ⟨u, hu, hcanonical, hbits⟩ := slice_spec h.covers hr
  refine ⟨u, hu, ?_⟩
  have hpart : v.bits offset len = (bits.drop offset).take len := by
    rw [← map_getD_range bits true hr]
    apply map_range_congr
    intro i hi
    have hlt : offset + i < bits.length := by omega
    rw [h.bit_eq hlt, List.getD_eq_getElem?_getD, List.getElem?_eq_getElem hlt, Option.getD_some]
  have hkeeps := hcanonical.keeps
  rwa [hbits, hpart] at hkeeps

theorem Keeps.isNull_eq {α : Type} {rows : List (Option α)} (h : v.Keeps (rows.map Option.isSome))
    {i : Nat} (hi : i < rows.length) : v.isNull i = .ok rows[i].isNone := by
  have hi' : i < (rows.map Option.isSome).length := by rwa [List.length_map]
  rw [Validity.isNull_eq h.covers hi', h.bit_eq hi', List.getElem_map]
  cases rows[i] <;> rfl

end Validity

/-! ## Fixed-width columns -/

namespace FixedColumn

variable {t : FixedType}

/-- The slots hold the values, with zeros under the nulls, and the validity tells the nulls. -/
structure Keeps (c : FixedColumn t) (rows : List (Option t.Slot)) : Prop where
  slots : c.slots = rows.map (·.getD 0)
  validity : c.validity.Keeps (rows.map Option.isSome)

theorem keeps_emptyWith (masked : Bool) : (emptyWith t masked).Keeps [] :=
  ⟨rfl, Validity.keeps_empty masked⟩

theorem keeps_ofList (slots : List t.Slot) : (ofList slots).Keeps (slots.map some) :=
  ⟨by rw [List.map_map]; exact slots.map_id.symm, Validity.keeps_none_of_valid slots⟩

theorem keeps_ofRows (rows : List (Option t.Slot)) : (ofRows rows).Keeps rows :=
  ⟨rfl, Validity.keeps_ofList _⟩

variable {c : FixedColumn t} {rows : List (Option t.Slot)} (h : c.Keeps rows)
include h

theorem Keeps.length_eq : c.length = rows.length := by
  rw [length, h.slots, List.length_map]

theorem Keeps.push (x : t.Slot) : (c.push x).Keeps (rows ++ [some x]) :=
  ⟨by simp [FixedColumn.push, h.slots], by rw [List.map_append]; exact h.validity.pushValid⟩

theorem Keeps.pushNull : c.pushNull.Keeps (rows ++ [none]) := by
  refine ⟨by simp [FixedColumn.pushNull, h.slots], ?_⟩
  rw [List.map_append]
  exact h.validity.pushNull (by rw [List.length_map, h.length_eq])

theorem Keeps.slice {offset len : Nat} (hr : offset + len ≤ rows.length) :
    ∃ d, c.slice offset len = .ok d ∧ d.Keeps ((rows.drop offset).take len) := by
  obtain ⟨u, hu, hkeeps⟩ := h.validity.slice (by rwa [List.length_map])
  have hrows : offset + len ≤ c.length := h.length_eq ▸ hr
  refine ⟨⟨(c.slots.drop offset).take len, u⟩, ?_, ?_, ?_⟩
  · simp [FixedColumn.slice, Checked.requireRange, hrows, hu, bind, Except.bind, pure, Except.pure]
  · rw [h.slots, List.map_take, List.map_drop]
  · rwa [List.map_take, List.map_drop]

theorem Keeps.slotAt_eq {i : Nat} (hi : i < rows.length) :
    c.slotAt i = .ok (rows[i].getD 0) := by
  rw [FixedColumn.slotAt_eq c (h.length_eq ▸ hi), h.slots]
  simp [List.getD_eq_getElem?_getD, hi]

theorem Keeps.get_eq {i : Nat} (hi : i < rows.length) : c.get i = .ok rows[i] := by
  simp only [get, h.validity.isNull_eq hi, h.slotAt_eq hi, ok_bind]
  cases rows[i] <;> rfl

end FixedColumn

/-! ## Boolean columns -/

namespace BooleanColumn

/-- The bits are the values, with clear ones under the nulls, and the validity tells the nulls. -/
structure Keeps (c : BooleanColumn) (rows : List (Option Bool)) : Prop where
  tight : c.values.Tight
  values : c.values.toList = rows.map (·.getD false)
  validity : c.validity.Keeps (rows.map Option.isSome)

theorem keeps_emptyWith (masked : Bool) : (emptyWith masked).Keeps [] :=
  ⟨Bitmask.tight_empty, rfl, Validity.keeps_empty masked⟩

theorem keeps_ofList (values : List Bool) : (ofList values).Keeps (values.map some) :=
  ⟨Bitmask.tight_ofList values,
    by rw [List.map_map]; exact (Bitmask.toList_ofList values).trans values.map_id.symm,
    Validity.keeps_none_of_valid values⟩

theorem keeps_ofRows (rows : List (Option Bool)) : (ofRows rows).Keeps rows := by
  obtain ⟨htight, hlist⟩ := Bitmask.tight_empty.foldl_push (rows.map (·.getD false))
  exact ⟨htight, hlist, Validity.keeps_ofList _⟩

variable {c : BooleanColumn} {rows : List (Option Bool)} (h : c.Keeps rows)
include h

theorem Keeps.length_eq : c.length = rows.length := by
  rw [length, ← Bitmask.length_toList, h.values, List.length_map]

theorem Keeps.push (x : Bool) : (c.push x).Keeps (rows ++ [some x]) := by
  refine ⟨h.tight.clean.push x, ?_, by rw [List.map_append]; exact h.validity.pushValid⟩
  rw [BooleanColumn.push, h.tight.clean.toList_push, h.values]
  simp

theorem Keeps.pushNull : c.pushNull.Keeps (rows ++ [none]) := by
  refine ⟨h.tight.clean.push false, ?_, ?_⟩
  · rw [BooleanColumn.pushNull, h.tight.clean.toList_push, h.values]
    simp
  · rw [List.map_append]
    exact h.validity.pushNull (by rw [List.length_map, h.length_eq])

theorem Keeps.slice {offset len : Nat} (hr : offset + len ≤ rows.length) :
    ∃ d, c.slice offset len = .ok d ∧ d.Keeps ((rows.drop offset).take len) := by
  obtain ⟨u, hu, hkeeps⟩ := h.validity.slice (by rwa [List.length_map])
  have hrows : offset + len ≤ c.values.len := by
    rw [← h.length_eq] at hr
    exact hr
  have hvalues := Bitmask.slice_eq hrows
  refine ⟨⟨.ofWindow (c.window offset len), u⟩, ?_, Bitmask.tight_ofWindow _, ?_, ?_⟩
  · simp [BooleanColumn.slice, Checked.requireRange, length, hrows, hvalues, hu, bind, Except.bind,
      pure, Except.pure, BooleanColumn.window]
  · rw [Bitmask.toList_ofWindow, window, Bitmask.toList_window hrows, h.values, List.map_take,
      List.map_drop]
  · rwa [List.map_take, List.map_drop]

theorem Keeps.valueAt_eq {i : Nat} (hi : i < rows.length) :
    c.valueAt i = .ok (rows[i].getD false) := by
  have hlt : i < c.length := h.length_eq ▸ hi
  have hget := congrArg (·[i]?) h.values
  rw [BooleanColumn.valueAt_eq c hlt]
  simp only [Bitmask.getElem?_toList, List.getElem?_map, List.getElem?_eq_getElem hi,
    Option.map_some] at hget
  rw [if_pos (show i < c.values.len from hlt), Option.some.injEq] at hget
  rw [hget]

theorem Keeps.get_eq {i : Nat} (hi : i < rows.length) : c.get i = .ok rows[i] := by
  have hlt : i < c.length := h.length_eq ▸ hi
  simp only [get, Checked.require_of hlt, h.validity.isNull_eq hi, h.valueAt_eq hi, ok_bind]
  cases rows[i] <;> rfl

end BooleanColumn

/-! ## Text columns -/

theorem Offsets.Cuts.partsFrom_part {w : Nat} {α : Type} {offsets : Offsets w}
    {parts : List (List α)} (h : offsets.Cuts parts) {first len : Nat}
    (hr : first + len ≤ parts.length) :
    offsets.partsFrom parts.flatten first len = (parts.drop first).take len := by
  rw [← map_getD_range parts [] hr]
  apply map_range_congr
  intro i hi
  have hlt : first + i < parts.length := by omega
  rw [h.part_eq hlt, List.getD_eq_getElem?_getD, List.getElem?_eq_getElem hlt, Option.getD_some]

namespace TextColumn

variable {t : TextType}

/-- The texts of rows, with no bytes for the nulls. -/
def textsOf (rows : List (Option String)) : List Bytes := rows.map (·.elim [] Utf8.encode)

/-- The offsets cut the bytes into the texts, with no bytes under the nulls, and the validity tells
the nulls. -/
structure Keeps (c : TextColumn t) (rows : List (Option String)) : Prop where
  cuts : c.offsets.Cuts (textsOf rows)
  bytes : c.bytes = (textsOf rows).flatten
  validity : c.validity.Keeps (rows.map Option.isSome)

/-- The number of text bytes of rows. -/
def size (rows : List (Option String)) : Nat := (textsOf rows).flatten.length

theorem textsOf_append (rows : List (Option String)) (row : Option String) :
    textsOf (rows ++ [row]) = textsOf rows ++ [row.elim [] Utf8.encode] := by
  simp [textsOf]

theorem size_append (rows : List (Option String)) (x : String) :
    size (rows ++ [some x]) = size rows + (Utf8.encode x).length := by
  simp [size, textsOf_append]

theorem size_append_none (rows : List (Option String)) : size (rows ++ [none]) = size rows := by
  simp [size, textsOf_append]

theorem keeps_emptyWith (masked : Bool) : (emptyWith t masked).Keeps [] :=
  ⟨Offsets.cuts_zero, rfl, Validity.keeps_empty masked⟩

variable {c : TextColumn t} {rows : List (Option String)} (h : c.Keeps rows)
include h

theorem Keeps.length_eq : c.length = rows.length := by
  rw [length, h.cuts.rows_eq, textsOf, List.length_map]

theorem Keeps.length_add (x : String) :
    c.bytes.length + (Utf8.encode x).length = size (rows ++ [some x]) := by
  rw [size_append, size, h.bytes]

theorem Keeps.tryPush {x : String}
    (hfits : size (rows ++ [some x]) ≤ Offsets.greatest t.offsetWidth) :
    ∃ d, c.tryPush (Utf8.encode x) = .ok d ∧ d.Keeps (rows ++ [some x]) := by
  rw [← h.length_add x] at hfits
  refine ⟨_, if_pos hfits, ?_, ?_, ?_⟩
  · rw [textsOf_append]
    apply h.cuts.append_one
    rw [Offsets.toNat_ofNat_of_le hfits, h.bytes]
    rfl
  · simp [textsOf_append, h.bytes]
  · rw [List.map_append]
    exact h.validity.pushValid

theorem Keeps.tryPush_eq_error {x : String}
    (hfits : ¬ size (rows ++ [some x]) ≤ Offsets.greatest t.offsetWidth) :
    c.tryPush (Utf8.encode x) =
      .error (.allocationFailure (.offsetOverflow (size (rows ++ [some x])))) := by
  rw [← h.length_add x] at hfits ⊢
  exact if_neg hfits

theorem Keeps.pushNull : c.pushNull.Keeps (rows ++ [none]) := by
  refine ⟨?_, ?_, ?_⟩
  · rw [textsOf_append]
    exact h.cuts.append_empty 1
  · simp [textsOf_append, TextColumn.pushNull, h.bytes]
  · rw [List.map_append]
    exact h.validity.pushNull (by rw [List.length_map, h.length_eq])

theorem Keeps.ascend : c.offsets.Ascend c.bytes.length := by
  rw [h.bytes]
  exact h.cuts.fill.ascend

theorem Keeps.bytesAt_eq {i : Nat} (hi : i < rows.length) :
    c.bytesAt i = .ok (rows[i].elim [] Utf8.encode) := by
  have hpart := h.cuts.part_eq (i := i) (by rwa [textsOf, List.length_map])
  rw [TextColumn.bytesAt_eq h.ascend (h.length_eq ▸ hi), h.bytes, hpart]
  simp [textsOf]

theorem Keeps.slice {offset len : Nat} (hr : offset + len ≤ rows.length) :
    ∃ d, c.slice offset len = .ok d ∧ d.Keeps ((rows.drop offset).take len) := by
  obtain ⟨u, hu, hkeeps⟩ := h.validity.slice (by rwa [List.length_map])
  have hrows : offset + len ≤ c.length := h.length_eq ▸ hr
  have hparts : c.offsets.partsFrom c.bytes offset len = textsOf ((rows.drop offset).take len) := by
    rw [h.bytes, h.cuts.partsFrom_part (by rwa [textsOf, List.length_map]), textsOf, textsOf,
      List.map_take, List.map_drop]
  refine ⟨⟨c.offsets.slice offset len, (c.offsets.partsFrom c.bytes offset len).flatten, u⟩, ?_, ?_,
    ?_, ?_⟩
  · simp [TextColumn.slice, Checked.requireRange, hrows, h.ascend.extent_eq hrows,
      h.ascend.bufferPart_eq hrows, hu, bind, Except.bind, pure, Except.pure]
  · rw [← hparts]
    exact h.ascend.cuts_slice hrows
  · rw [← hparts]
  · rwa [List.map_take, List.map_drop]

theorem Keeps.get_eq {i : Nat} (hi : i < rows.length) : c.get i = .ok rows[i] := by
  simp only [get, textAt, h.validity.isNull_eq hi, h.bytesAt_eq hi, ok_bind]
  cases rows[i] with
  | none => rfl
  | some x =>
    simp only [Option.elim_some, Utf8.decode_encode]
    rfl

omit h

/-- What pushing `more` onto `rows` comes to: a column of all of them, or a fault at the first row
whose text does not fit. -/
inductive Pushed (rows more : List (Option String)) : Checked (TextColumn t) → Prop
  | kept {d : TextColumn t} : d.Keeps (rows ++ more) → Pushed rows more (.ok d)
  | stopped (before after : List (Option String)) (x : String) :
      more = before ++ some x :: after →
      size (rows ++ before) ≤ Offsets.greatest t.offsetWidth →
      ¬ size (rows ++ before ++ [some x]) ≤ Offsets.greatest t.offsetWidth →
      Pushed rows more (.error (.refused
        (.allocationFailure (.offsetOverflow (size (rows ++ before ++ [some x]))))))

theorem Pushed.cons {row : Option String} {more : List (Option String)}
    {y : Checked (TextColumn t)} (hy : Pushed (rows ++ [row]) more y) :
    Pushed rows (row :: more) y := by
  cases hy with
  | kept hkeeps => exact .kept (by rwa [List.append_cons])
  | stopped before after x hmore hbefore hx =>
    simp only [List.append_assoc rows [row], List.singleton_append] at hbefore hx ⊢
    exact .stopped (row :: before) after x (by rw [hmore, List.cons_append]) hbefore hx

include h

/-- Nullable rows are pushed one by one, up to the first whose text does not fit. -/
theorem Keeps.foldlM_pushRow (hsize : size rows ≤ Offsets.greatest t.offsetWidth)
    (more : List (Option String)) :
    Pushed rows more ((more.map (Option.map Utf8.encode)).foldlM pushRow c) := by
  induction more generalizing c rows with
  | nil => exact .kept (by rwa [List.append_nil])
  | cons row more ih =>
    rw [List.map_cons, List.foldlM_cons]
    cases row with
    | none => exact (ih h.pushNull (by rwa [size_append_none])).cons
    | some x =>
      rw [Option.map_some, pushRow, push]
      by_cases hfits : size (rows ++ [some x]) ≤ Offsets.greatest t.offsetWidth
      · obtain ⟨d, hd, hkeeps⟩ := h.tryPush hfits
        rw [hd]
        exact (ih hkeeps hfits).cons
      · rw [h.tryPush_eq_error hfits]
        have hstopped := @Pushed.stopped t rows _ [] more x rfl
        rw [List.append_nil] at hstopped
        exact hstopped hsize hfits

omit h

theorem ofList_eq_ofRows (texts : List Bytes) :
    (ofList texts : Checked (TextColumn t)) = ofRows (texts.map some) := by
  have htexts : (texts.map some).map (·.getD []) = texts := by
    rw [List.map_map]
    exact List.map_id texts
  rw [ofList, ofRows, htexts, List.length_map]
  simp only [List.foldlM_map]
  rfl

/-- Both buffers are asked for before the first row is pushed. -/
theorem ofRows_encode (rows : List (Option String)) :
    (ofRows (rows.map (Option.map Utf8.encode)) : Checked (TextColumn t)) =
      (do
        Checked.requireBytes ((rows.length + 1) * (t.offsetWidth / 8))
        Checked.requireBytes (size rows)
        (rows.map (Option.map Utf8.encode)).foldlM pushRow (emptyWith t false)) := by
  have htexts : (rows.map (Option.map Utf8.encode)).map (·.getD []) = textsOf rows := by
    rw [textsOf, List.map_map]
    refine List.map_congr_left fun row _ => ?_
    cases row <;> rfl
  simp only [ofRows, withRoom, htexts, List.length_map, bind_assoc, pure_bind, size]

end TextColumn

end Columnar
