import Columnar.Failure
import Columnar.Proofs.Column.Rows
import Columnar.Row

/-!
# What rows take up

Rows take bytes for their text, and offsets that can count their text and their elements. Either may
run out, so how much of both is taken is told here by the rows alone.
-/

namespace Columnar

/-! ## The text in rows

How many text bytes rows hold, the elements of lists included. All of them lie in one buffer of the
column, however deep its lists are nested, so this is what may run out of memory where no buffer was
reserved.
-/

namespace Row

mutual

/-- The text bytes of a row. -/
def textBytes : Row → Nat
  | text _ bytes => bytes.length
  | list _ elements => textBytesOf elements
  | _ => 0

/-- The text bytes of rows, all together. -/
def textBytesOf : List Row → Nat
  | [] => 0
  | r :: rest => r.textBytes + textBytesOf rest

end

@[simp] theorem textBytesOf_append (xs ys : List Row) :
    textBytesOf (xs ++ ys) = textBytesOf xs + textBytesOf ys := by
  induction xs with
  | nil => simp [textBytesOf]
  | cons r xs ih => simp [textBytesOf, ih, Nat.add_assoc]

theorem textBytesOf_replicate (n : Nat) (r : Row) :
    textBytesOf (List.replicate n r) = n * r.textBytes := by
  induction n with
  | zero => simp [textBytesOf]
  | succ n ih => rw [List.replicate_succ, textBytesOf, ih, Nat.succ_mul, Nat.add_comm]

theorem textBytesOf_eq_zero {rows : List Row} (h : ∀ r ∈ rows, r.textBytes = 0) :
    textBytesOf rows = 0 := by
  induction rows with
  | nil => simp [textBytesOf]
  | cons r rows ih =>
    simp [textBytesOf, h r (.head _), ih fun q hq => h q (.tail _ hq)]

theorem textBytesOf_zipWith_of_flat {α : Type} {g : Bool → α → Row} {bits : List Bool}
    {values : List α} (h : ∀ valid x, (g valid x).textBytes = 0) :
    textBytesOf (List.zipWith g bits values) = 0 := by
  apply textBytesOf_eq_zero
  intro r hr
  rw [← List.map_uncurry_zip_eq_zipWith] at hr
  obtain ⟨p, -, rfl⟩ := List.mem_map.1 hr
  exact h p.1 p.2

theorem textBytesOf_zipWith_text {bits : List Bool} {parts : List Bytes}
    (h : bits.length = parts.length) :
    textBytesOf (List.zipWith Row.text bits parts) = parts.flatten.length := by
  induction parts generalizing bits with
  | nil => simp [textBytesOf]
  | cons p parts ih =>
    cases bits with
    | nil => exact absurd h (by simp)
    | cons b bits =>
      rw [List.zipWith_cons_cons, textBytesOf, textBytes, ih (by simpa using h),
        List.flatten_cons, List.length_append]

theorem textBytesOf_zipWith_list {bits : List Bool} {parts : List (List Row)}
    (h : bits.length = parts.length) :
    textBytesOf (List.zipWith Row.list bits parts) = textBytesOf parts.flatten := by
  induction parts generalizing bits with
  | nil => simp [textBytesOf]
  | cons p parts ih =>
    cases bits with
    | nil => exact absurd h (by simp)
    | cons b bits =>
      rw [List.zipWith_cons_cons, textBytesOf, textBytes, ih (by simpa using h),
        List.flatten_cons, textBytesOf_append]

end Row

/-! ## Room for rows

The offsets of a column count the text bytes of its rows, or their elements, and where lists are
nested the elements of the elements as well. There is **room** for rows under a type if no count, at
any depth, is past the greatest offset of its width.
-/

namespace Row

/-- The elements of a row. Only lists have any. -/
def elements : Row → List Row
  | list _ elements => elements
  | _ => []

/-- The elements of rows, put together. -/
def elementsOf (rows : List Row) : List Row := rows.flatMap elements

@[simp] theorem elementsOf_append (xs ys : List Row) :
    elementsOf (xs ++ ys) = elementsOf xs ++ elementsOf ys :=
  List.flatMap_append

theorem length_elementsOf_replicate (n : Nat) (r : Row) :
    (elementsOf (List.replicate n r)).length = n * r.elements.length := by
  induction n with
  | zero => simp [elementsOf]
  | succ n ih =>
    rw [List.replicate_succ, elementsOf, List.flatMap_cons, List.length_append, Nat.succ_mul,
      Nat.add_comm]
    exact congrArg (· + _) ih

theorem length_elementsOf_elementsOf_replicate (n : Nat) (r : Row) :
    (elementsOf (elementsOf (List.replicate n r))).length = n * (elementsOf r.elements).length := by
  induction n with
  | zero => simp [elementsOf]
  | succ n ih =>
    have hcons : elementsOf (List.replicate (n + 1) r) =
        r.elements ++ elementsOf (List.replicate n r) := by
      rw [List.replicate_succ, elementsOf, List.flatMap_cons, elementsOf]
    rw [hcons, elementsOf_append, List.length_append, ih, Nat.succ_mul, Nat.add_comm]

theorem elementsOf_zipWith_list {bits : List Bool} {parts : List (List Row)}
    (h : bits.length = parts.length) :
    elementsOf (List.zipWith Row.list bits parts) = parts.flatten := by
  induction parts generalizing bits with
  | nil => simp [elementsOf]
  | cons p parts ih =>
    cases bits with
    | nil => exact absurd h (by simp)
    | cons b bits =>
      have hrest := ih (show bits.length = parts.length by simpa using h)
      rw [elementsOf] at hrest ⊢
      rw [List.zipWith_cons_cons, List.flatMap_cons, hrest, List.flatten_cons, elements]

end Row

/-- The elements of a range of list rows are a range of the child's rows. -/
theorem Column.elementsOf_rowsFrom_list {r : ListRows} {c : Column}
    (h : r.offsets.Ascend c.length) {offset len : Nat} (hr : offset + len ≤ r.length) :
    Row.elementsOf ((list r c).rowsFrom offset len) =
      c.rowsFrom (r.offsets.offsetAt offset).toNat (r.offsets.payload offset len) := by
  have hstart := h.start_add_payload hr
  have hlimit := h.le_limit hr
  have h' : r.offsets.Ascend c.rows.length := by rwa [Column.length_rows]
  rw [rowsFrom_list, Row.elementsOf_zipWith_list (by simp), h'.flatten_partsFrom hr,
    rowsFrom_eq c (by omega)]

/-- Lists that leave out nothing of their child have all its rows for elements. -/
theorem Column.elementsOf_rows_list {r : ListRows} {c : Column} (h : r.offsets.Fill c.length) :
    Row.elementsOf (list r c).rows = c.rows := by
  have hpayload : r.offsets.payload 0 r.length = c.length := by
    rw [Offsets.payload, h.offsetAt_zero, Nat.zero_add, ListRows.length, ← Offsets.last_eq, h.2.2]
    rfl
  rw [rows_eq_rowsFrom, rows_eq_rowsFrom c]
  have := elementsOf_rowsFrom_list h.ascend (Nat.le_of_eq (Nat.zero_add r.length))
  rwa [h.offsetAt_zero, hpayload] at this

namespace DataType

/-- The offsets of a column of the type, and of its children, can count the rows. -/
def Room : DataType → List Row → Prop
  | text t, rows => Row.textBytesOf rows ≤ Offsets.greatest t.offsetWidth
  | list child, rows =>
    (Row.elementsOf rows).length ≤ Offsets.greatest listOffsetWidth ∧
      child.Room (Row.elementsOf rows)
  | _, _ => True

theorem Room.of_append {type : DataType} {xs ys : List Row} (h : type.Room (xs ++ ys)) :
    type.Room xs := by
  induction type generalizing xs ys with
  | null | boolean | fixed => trivial
  | text t =>
    rw [Room, Row.textBytesOf_append] at h
    exact Nat.le_trans (Nat.le_add_right _ _) h
  | list child ih =>
    rw [Room, Row.elementsOf_append, List.length_append] at h
    exact ⟨Nat.le_trans (Nat.le_add_right _ _) h.1, ih h.2⟩

/-- The offsets of the type's text, at whatever depth, can count more bytes than there are. -/
def Wide : DataType → Prop
  | text t => addressableBytes < Offsets.greatest t.offsetWidth
  | list child => child.Wide
  | _ => False

end DataType

/-! ### Rows of columns -/

namespace Column

/-- The bytes of the column's text buffer, at whatever depth it lies. -/
def textLength : Column → Nat
  | text _ c => c.bytes.length
  | list _ child => child.textLength
  | _ => 0

variable {c : Column} {offset len : Nat}

theorem textBytesOf_rowsFrom_list {r : ListRows} {child : Column}
    (h : r.offsets.Ascend child.length) (hr : offset + len ≤ r.length) :
    Row.textBytesOf ((list r child).rowsFrom offset len) = Row.textBytesOf
      (child.rowsFrom (r.offsets.offsetAt offset).toNat (r.offsets.payload offset len)) := by
  rw [← elementsOf_rowsFrom_list h hr, rowsFrom_list, Row.textBytesOf_zipWith_list (by simp),
    Row.elementsOf_zipWith_list (by simp)]

/-- The rows of a column hold no more text than the column stores. -/
theorem textBytesOf_rowsFrom_le (hc : c.WellFormed) (hr : offset + len ≤ c.length) :
    Row.textBytesOf (c.rowsFrom offset len) ≤ c.textLength := by
  induction c generalizing offset len with
  | fixed t c =>
    rw [rowsFrom_fixed c hr, Row.textBytesOf_zipWith_of_flat fun _ _ => by simp [Row.textBytes]]
    exact Nat.zero_le _
  | boolean c =>
    rw [rowsFrom_boolean, Row.textBytesOf_zipWith_of_flat fun _ _ => by simp [Row.textBytes]]
    exact Nat.zero_le _
  | text t c =>
    have hascend := hc.1
    have hstart := hascend.start_add_payload hr
    have hlimit := hascend.le_limit hr
    rw [rowsFrom_text, Row.textBytesOf_zipWith_text (by simp),
      hascend.length_flatten_partsFrom hr, textLength]
    omega
  | list r child ih =>
    obtain ⟨hascend, -, hchild⟩ := hc
    have hstart := hascend.start_add_payload hr
    have hlimit := hascend.le_limit hr
    rw [textBytesOf_rowsFrom_list hascend hr]
    exact ih hchild (by omega)
  | null kind =>
    obtain rfl : len = 0 := Nat.eq_zero_of_le_zero (Nat.le_trans (Nat.le_add_left _ _) hr)
    exact Nat.le_refl _

/-- **Offsets that a column has can count its rows**, wherever these start. -/
theorem room_rowsFrom (hc : c.WellFormed) (hr : offset + len ≤ c.length) :
    c.type.Room (c.rowsFrom offset len) := by
  induction c generalizing offset len with
  | fixed | boolean | null => trivial
  | text t c =>
    have hascend := hc.1
    rw [type, DataType.Room, rowsFrom_text, Row.textBytesOf_zipWith_text (by simp),
      hascend.length_flatten_partsFrom hr, ← hascend.toNat_sub hr]
    exact Offsets.toNat_le_greatest _
  | list r child ih =>
    obtain ⟨hascend, -, hchild⟩ := hc
    have hstart := hascend.start_add_payload hr
    have hlimit := hascend.le_limit hr
    rw [type, DataType.Room, elementsOf_rowsFrom_list hascend hr, length_rowsFrom]
    refine ⟨?_, ih hchild (by omega)⟩
    rw [← hascend.toNat_sub hr]
    exact Offsets.toNat_le_greatest _

end Column

end Columnar
