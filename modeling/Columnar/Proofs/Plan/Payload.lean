import Columnar.Proofs.Builder.Overflow
import Columnar.Proofs.Plan.Execution
import Mathlib.Algebra.BigOperators.Fin
import Mathlib.Algebra.Order.BigOperators.Group.Finset

/-!
# What a plan reserves

A plan reserves its payload before it copies anything. It reads the payload of a whole range of rows
off two offsets, or multiplies that of a scalar, and adds up with sums that stop at the greatest
size. Nulls count with the bytes that they span, since these are copied.

For the rows of one value this is exact up to the greatest size (`Value.payload_eq`). A span plan
adds ranges that tile the output, so **its reservation is the payload of its rows**. A row plan adds
the whole of each value. A row counts in the value that it is taken from and in no other, so **its
reservation is no less than the payload of its rows**, and more if a value does not supply all rows.
-/

namespace Columnar

/-! ## Sums that stop -/

theorem foldl_addSat {sizes : List Nat} {a : Nat} (ha : a ≤ maxSize) :
    sizes.foldl addSat a = min (a + sizes.sum) maxSize := by
  induction sizes generalizing a with
  | nil => simp [ha]
  | cons n sizes ih =>
    rw [List.foldl_cons, addSat, ih (Nat.min_le_right _ _), List.sum_cons]
    omega

/-- Where a sum stops on the way does not matter. -/
theorem sumSat_eq (sizes : List Nat) : sumSat sizes = min sizes.sum maxSize := by
  rw [sumSat, foldl_addSat (Nat.zero_le _), Nat.zero_add]

/-! ## The payload of rows -/

namespace DataType

variable {type : DataType} {rows : List Row}

theorem payloadOf_replicate (type : DataType) (n : Nat) (r : Row) :
    type.payloadOf (List.replicate n r) = n * type.payloadOf [r] := by
  induction n with
  | zero =>
    rw [Nat.zero_mul]
    exact type.payloadOf_blanks 0
  | succ n ih =>
    rw [List.replicate_succ', payloadOf_append, ih, Nat.succ_mul]

theorem payloadOf_map_range (type : DataType) (f : Nat → Row) (n : Nat) :
    type.payloadOf ((List.range n).map f) = ∑ i ∈ Finset.range n, type.payloadOf [f i] := by
  induction n with
  | zero => exact type.payloadOf_blanks 0
  | succ n ih =>
    rw [List.range_succ, List.map_append, payloadOf_append, ih, Finset.sum_range_succ]
    rfl

/-- What offsets can count is a size. -/
theorem Room.payloadOf_le (h : type.Room rows) : type.payloadOf rows ≤ maxSize := by
  cases type with
  | null | boolean | fixed => exact Nat.zero_le _
  | text t =>
    have hwidth : Offsets.greatest t.offsetWidth ≤ maxSize := by cases t <;> decide
    exact Nat.le_trans h hwidth
  | list child => exact Nat.le_trans h.1 (by decide)

end DataType

namespace Value

variable {value : Value} {type : DataType} {len start n : Nat}

theorem payload_column {v : View} (hv : v.column.WellFormed) (hle : start + n ≤ v.len) :
    (column v).payload start n = v.type.payloadOf (v.column.rowsFrom (v.offset + start) n) := by
  have hbounds := v.in_bounds
  have hr : v.offset + start + n ≤ v.column.length := by omega
  rw [payload, View.type]
  split
  · rename_i hn
    subst hn
    exact (v.column.type.payloadOf_blanks 0).symm
  · generalize v.column = c at hv hr ⊢
    cases c with
    | fixed | boolean | null => rfl
    | text t c =>
      rw [Column.type, DataType.payloadOf, Column.rowsFrom_text,
        Row.textBytesOf_zipWith_text (by simp), hv.1.length_flatten_partsFrom hr]
    | list r child =>
      rw [Column.type, DataType.payloadOf, Column.elementsOf_rowsFrom_list hv.1 hr,
        Column.length_rowsFrom]

theorem payload_scalar {s : Scalar} (hfits : (scalar s).Fits type) :
    (scalar s).payload start n = mulSat (type.payloadOf [s.row type]) n := by
  unfold payload
  by_cases hn : n = 0
  · rw [if_pos hn, hn]
    rfl
  rw [if_neg hn]
  cases s with
  | null =>
    have hblank : type.payloadOf [Row.blank type] = 0 := type.payloadOf_blanks 1
    exact congrArg (mulSat · n) hblank.symm
  | fixed t x =>
    obtain rfl : DataType.fixed t = type := hfits rfl
    rfl
  | boolean x =>
    obtain rfl : DataType.boolean = type := hfits rfl
    rfl
  | text t x =>
    obtain rfl : DataType.text t = type := hfits rfl
    cases x <;> rfl
  | list child x =>
    obtain rfl : DataType.list child = type := hfits rfl
    cases x with
    | none => rfl
    | some elements =>
      simp [Scalar.row, DataType.payloadOf, Row.elementsOf, Row.elements]

/-- **What is counted for rows of a value is their payload**, as far as sizes go. -/
theorem payload_eq (h : value.Ready type len) (hle : start + n ≤ len) :
    value.payload start n =
      min (type.payloadOf ((List.range n).map fun j => value.row type (start + j))) maxSize := by
  cases value with
  | column v =>
    obtain rfl := h.length v.len rfl
    obtain rfl : v.type = type := h.fits rfl
    have hbounds := v.in_bounds
    have hroom : v.type.Room (v.column.rowsFrom (v.offset + start) n) :=
      Column.room_rowsFrom h.wellFormed (by omega)
    rw [payload_column h.wellFormed hle, ← Nat.min_eq_left hroom.payloadOf_le, v.rowsFrom_eq]
    rfl
  | scalar s =>
    have hrows : ((List.range n).map fun j => (scalar s).row type (start + j)) =
        List.replicate n (s.row type) := map_range_const _ n
    rw [payload_scalar h.fits, hrows, DataType.payloadOf_replicate, mulSat, Nat.mul_comm]

end Value

namespace Plan

variable {s : Supply} {type : DataType} {len : Nat} {values : List Value}

/-! ## Spans -/

/-- What a span plan counts for a source. -/
def sourcePayload (values : List Value) (source : Option Nat) (start n : Nat) : Option Nat :=
  source.bind fun k => values[k]?.map fun value => value.payload start n

theorem sourcePayload_eq {source : Option Nat} {start n : Nat} (hs : s.Ready type len)
    (hn : 0 < n) (hle : start + n ≤ len)
    (hnames : ∀ j < n, Names values source (s (start + j))) :
    (sourcePayload values source start n).getD 0 =
      min (type.payloadOf ((List.range n).map fun j => s.row type (start + j))) maxSize := by
  rcases names_cases hn hnames with ⟨rfl, hnone⟩ | ⟨k, value, rfl, hvalue, hsame⟩
  · rw [Supply.rows_of_unsupplied _ hnone, DataType.payloadOf_blanks]
    rfl
  · have hready := hs start (by omega) value (hsame 0 hn)
    rw [Supply.rows_of_supplied _ hsame, ← Value.payload_eq hready hle, sourcePayload,
      Option.bind_some, hvalue]
    rfl

/-- Spans that tile the rows from `start` on count the payload of these rows. -/
theorem payload_tile {ss : List Span} {start : Nat} (hs : s.Ready type len)
    (htile : Segment.Tile start len ss)
    (hnames : ∀ t ∈ ss, ∀ i, t.start ≤ i → i < t.stop → Names values t.value (s i)) :
    min (type.payloadOf (s.rows type start) +
        (ss.filterMap fun t => sourcePayload values t.value t.start t.len).sum) maxSize =
      min (type.payloadOf (s.rows type len)) maxSize := by
  induction ss generalizing start with
  | nil =>
    cases htile
    rfl
  | cons t rest ih =>
    have hstop := (htile.bounds (.head _)).2
    obtain ⟨rfl, hlen, hrest⟩ := htile
    have hhead := sourcePayload_eq hs hlen hstop fun j hj =>
      hnames t (.head _) _ (Nat.le_add_right _ _) (Nat.add_lt_add_left hj _)
    have hsum : ((t :: rest).filterMap fun t => sourcePayload values t.value t.start t.len).sum =
        (sourcePayload values t.value t.start t.len).getD 0 +
          (rest.filterMap fun t => sourcePayload values t.value t.start t.len).sum := by
      rw [List.filterMap_cons]
      cases sourcePayload values t.value t.start t.len <;> simp
    rw [← ih hrest fun u hu => hnames u (.tail _ hu), hsum, hhead, Segment.stop,
      Supply.rows_add, DataType.payloadOf_append]
    omega

/-- **A span plan reserves the payload of its rows.** -/
theorem payload_spans {ss : List Span} (h : (spans values ss).Supplies len s)
    (hs : s.Ready type len) :
    (spans values ss).payload len = min (type.payloadOf (s.rows type len)) maxSize := by
  obtain ⟨htile, hnames⟩ := h
  have htotal := payload_tile hs htile hnames
  have hnone : type.payloadOf (s.rows type 0) = 0 := type.payloadOf_blanks 0
  rw [hnone, Nat.zero_add, ← sumSat_eq] at htotal
  exact htotal

/-! ## Rows -/

/-- The payload of the rows that are taken from source `k`. -/
def share (type : DataType) (s : Supply) (source : Nat → Checked (Option Nat)) (len k : Nat) :
    Nat :=
  ∑ i ∈ Finset.range len, if source i = .ok (some k) then type.payloadOf [s.row type i] else 0

variable {source : Nat → Checked (Option Nat)}

/-- Each row with a payload is in the share of its source. -/
theorem payloadOf_le_sum_share (type : DataType) (h : (rows values source).Supplies len s) :
    type.payloadOf (s.rows type len) ≤
      ∑ k : Fin values.length, share type s source len k := by
  simp only [share]
  rw [Supply.rows, DataType.payloadOf_map_range, Finset.sum_comm]
  apply Finset.sum_le_sum
  intro i hi
  obtain ⟨k, hsource, hnames⟩ := h i (Finset.mem_range.1 hi)
  cases k with
  | none =>
    have hnone : s i = none := hnames
    have hzero : type.payloadOf [s.row type i] = 0 := by
      rw [Supply.row, hnone]
      exact type.payloadOf_blanks 1
    rw [hzero]
    exact Nat.zero_le _
  | some k =>
    obtain ⟨value, hvalue, -⟩ := hnames
    have hk := (List.getElem?_eq_some_iff.1 hvalue).1
    -- The row is taken from one source, and its payload is a term of the share of that one.
    have hterm := Finset.single_le_sum (s := Finset.univ) (f := fun k : Fin values.length =>
      if source i = .ok (some k.1) then type.payloadOf [s.row type i] else 0)
      (fun _ _ => Nat.zero_le _) (Finset.mem_univ ⟨k, hk⟩)
    rwa [if_pos hsource] at hterm

/-- A value that supplies a row counts for all the rows that it supplies. -/
theorem share_le (h : (rows values source).Supplies len s) (hs : s.Ready type len)
    (k : Fin values.length) :
    min (share type s source len k) maxSize ≤ (values[k]).payload 0 len := by
  -- A value that is used has as many rows as the call, so it counts for all of them. One that is
  -- not used need not be ready, but has no share.
  by_cases hused : ∃ i < len, source i = .ok (some k.1)
  · have hvalue : ∀ i < len, source i = .ok (some k.1) → s i = some values[k] := by
      intro i hi hsource
      obtain ⟨k', hk', hnames⟩ := h i hi
      cases hsource.symm.trans hk'
      obtain ⟨value, hvalue, hsupplied⟩ := hnames
      rw [hsupplied, ← hvalue]
      exact List.getElem?_eq_getElem k.isLt
    obtain ⟨i, hi, hsource⟩ := hused
    have hready := hs i hi _ (hvalue i hi hsource)
    have hshare : share type s source len k ≤
        type.payloadOf ((List.range len).map fun j => (values[k]).row type (0 + j)) := by
      rw [DataType.payloadOf_map_range, share]
      apply Finset.sum_le_sum
      intro j hj
      split
      · rename_i hjsource
        rw [Supply.row, hvalue j (Finset.mem_range.1 hj) hjsource, Nat.zero_add]
        rfl
      · exact Nat.zero_le _
    rw [Value.payload_eq hready (Nat.le_of_eq (Nat.zero_add _))]
    omega
  · have hzero : share type s source len k = 0 := by
      refine Finset.sum_eq_zero fun i hi => if_neg fun hsource => ?_
      exact hused ⟨i, Finset.mem_range.1 hi, hsource⟩
    rw [hzero]
    exact Nat.zero_le _

/-- **A row plan reserves no less than the payload of its rows.** -/
theorem payload_rows (h : (rows values source).Supplies len s) (hs : s.Ready type len) :
    min (type.payloadOf (s.rows type len)) maxSize ≤ (rows values source).payload len := by
  have htotal : min (type.payloadOf (s.rows type len)) maxSize ≤
      (values.map fun value => value.payload 0 len).sum :=
    calc min (type.payloadOf (s.rows type len)) maxSize
      _ ≤ min (∑ k : Fin values.length, share type s source len k) maxSize := by
        have hle := payloadOf_le_sum_share type h
        omega
      _ ≤ ∑ k : Fin values.length, min (share type s source len k) maxSize :=
        Finset.le_sum_of_subadditive (min · maxSize) (Nat.zero_le _)
          (fun a b => show min (a + b) maxSize ≤ min a maxSize + min b maxSize by omega) _ _
      _ ≤ ∑ k : Fin values.length, (values[k]).payload 0 len :=
        Finset.sum_le_sum fun k _ => share_le h hs k
      _ = (values.map fun value => value.payload 0 len).sum :=
        Fin.sum_univ_fun_getElem values fun value => value.payload 0 len
  rw [payload, sumSat_eq]
  omega

end Plan

end Columnar
