import Columnar.Proofs.Column.Rows

/-!
# Lists of given lengths

`Column.ofLengths` puts lists one after the other over a child, and its offsets are the running
totals of their lengths. A total is a number and an offset is a word, so a total past the greatest
offset is cut, and the check that the last offset lies within the child is made after the cut.

Up to the greatest offset nothing is cut: **the rows keep their lengths exactly if the total of all
lengths is an offset**. Past it some row is wrong, and yet the column is accepted whenever what is
left of the total lies within the child.
-/

namespace Columnar

namespace Column

/-! ## Totals -/

/-- The number of elements in rows of the given lengths. Null rows have none. -/
def elementCount : List (Option Nat) → Nat
  | [] => 0
  | n :: rest => n.getD 0 + elementCount rest

theorem elementCount_append (xs ys : List (Option Nat)) :
    elementCount (xs ++ ys) = elementCount xs + elementCount ys := by
  induction xs with
  | nil => simp [elementCount]
  | cons n xs ih => simp [elementCount, ih, Nat.add_assoc]

variable {lengths : List (Option Nat)} {i : Nat} {n : Option Nat}

theorem elementCount_take_succ (h : lengths[i]? = some n) :
    elementCount (lengths.take (i + 1)) = elementCount (lengths.take i) + n.getD 0 := by
  rw [List.take_add_one, h, elementCount_append]
  rfl

theorem elementCount_take_le (lengths : List (Option Nat)) (i : Nat) :
    elementCount (lengths.take i) ≤ elementCount lengths := by
  have happend := elementCount_append (lengths.take i) (lengths.drop i)
  rw [List.take_append_drop] at happend
  omega

/-! ## Offsets -/

/-- The offsets of lists of the given lengths. -/
def offsetsOf (lengths : List (Option Nat)) : Offsets listOffsetWidth :=
  runningOffsets 0 (lengths.map (·.getD 0))

@[simp] theorem length_runningOffsets (total : Nat) (ns : List Nat) :
    (runningOffsets total ns).length = ns.length + 1 := by
  induction ns generalizing total with
  | nil => rfl
  | cons n ns ih => simp [runningOffsets, ih]

theorem length_offsetsOf (lengths : List (Option Nat)) :
    (offsetsOf lengths).length = lengths.length + 1 := by
  rw [offsetsOf, length_runningOffsets, List.length_map]

theorem rows_offsetsOf (lengths : List (Option Nat)) :
    (offsetsOf lengths).rows = lengths.length := by
  rw [Offsets.rows, length_offsetsOf, Nat.add_sub_cancel]

theorem getElem?_runningOffsets (total : Nat) (hi : i ≤ lengths.length) :
    (runningOffsets total (lengths.map (·.getD 0)))[i]? =
      some (BitVec.ofNat _ (total + elementCount (lengths.take i))) := by
  induction lengths generalizing total i with
  | nil =>
    obtain rfl : i = 0 := Nat.le_zero.1 hi
    rfl
  | cons n lengths ih =>
    cases i with
    | zero => rfl
    | succ i =>
      rw [List.map_cons, runningOffsets, List.getElem?_cons_succ, ih _ (Nat.le_of_succ_le_succ hi),
        List.take_succ_cons, elementCount, Nat.add_assoc]

/-- Offset `i` is the total of the lengths before row `i`, cut to a word. -/
theorem getElem?_offsetsOf (hi : i ≤ lengths.length) :
    (offsetsOf lengths)[i]? = some (BitVec.ofNat _ (elementCount (lengths.take i))) := by
  rw [offsetsOf, getElem?_runningOffsets 0 hi, Nat.zero_add]

theorem last_offsetsOf (lengths : List (Option Nat)) :
    (offsetsOf lengths).last = BitVec.ofNat _ (elementCount lengths) := by
  rw [Offsets.last_eq, rows_offsetsOf, Offsets.offsetAt, List.getD_eq_getElem?_getD,
    getElem?_offsetsOf (Nat.le_refl _), List.take_length, Option.getD_some]

theorem range_offsetsOf (h : lengths[i]? = some n) :
    (offsetsOf lengths).range i =
      .ok ((BitVec.ofNat listOffsetWidth (elementCount (lengths.take i))).toNat,
        (BitVec.ofNat listOffsetWidth (elementCount (lengths.take i) + n.getD 0)).toNat) := by
  have hi : i < lengths.length := (List.getElem?_eq_some_iff.1 h).1
  simp only [Offsets.range, Offsets.extent, Offsets.read, getElem?_offsetsOf (Nat.le_of_lt hi),
    getElem?_offsetsOf hi, elementCount_take_succ h]
  rfl

/-! ## Rows -/

/-- Every row that is not null covers as many elements as its length says. It starts where the rows
before it end, and ends inside a child of `limit` elements. -/
def KeepsLengths (rows : ListRows) (lengths : List (Option Nat)) (limit : Nat) : Prop :=
  ∀ i n, lengths[i]? = some (some n) →
    rows.offsets.range i =
        .ok (elementCount (lengths.take i), elementCount (lengths.take i) + n) ∧
      elementCount (lengths.take i) + n ≤ limit

/-- Rows of these offsets keep their lengths as long as the total is an offset. -/
theorem keepsLengths_of_le {v : Validity} {limit : Nat}
    (htotal : elementCount lengths ≤ Offsets.greatest listOffsetWidth)
    (hlimit : elementCount lengths ≤ limit) :
    KeepsLengths ⟨offsetsOf lengths, v⟩ lengths limit := by
  intro i n h
  have hstop := elementCount_take_le lengths (i + 1)
  rw [elementCount_take_succ h, Option.getD_some] at hstop
  rw [range_offsetsOf h, Option.getD_some, Offsets.toNat_ofNat_of_le (by omega),
    Offsets.toNat_ofNat_of_le (by omega)]
  exact ⟨rfl, Nat.le_trans hstop hlimit⟩

theorem KeepsLengths.take_le {v : Validity} {limit : Nat}
    (h : KeepsLengths ⟨offsetsOf lengths, v⟩ lengths limit) (hi : i ≤ lengths.length) :
    elementCount (lengths.take i) ≤ Offsets.greatest listOffsetWidth := by
  induction i with
  | zero => exact Nat.zero_le _
  | succ i ih =>
    have hget := List.getElem?_eq_getElem hi
    rw [elementCount_take_succ hget]
    cases hn : lengths[i] with
    | none => exact ih (Nat.le_of_lt hi)
    | some n =>
      rw [hn] at hget
      have hrange := (range_offsetsOf hget).symm.trans (h i n hget).1
      have hstop := (Prod.mk.inj (Except.ok.inj hrange)).2
      rw [Option.getD_some] at hstop ⊢
      exact hstop ▸ Offsets.toNat_le_greatest _

/-- Lists of given lengths are accepted exactly if their total, once it is cut to an offset, lies
within the child. -/
theorem ofLengths_eq_ok {child c : Column} :
    ofLengths child lengths = .ok c ↔
      (BitVec.ofNat listOffsetWidth (elementCount lengths)).toNat ≤ child.length ∧
        c = list ⟨offsetsOf lengths, .ofList (lengths.map Option.isSome)⟩ child := by
  have hfirst : offsetsOf lengths ≠ [] :=
    List.ne_nil_of_length_pos (Nat.lt_of_lt_of_eq (Nat.succ_pos _) (length_offsetsOf _).symm)
  have hmask := (Validity.ofList_spec (lengths.map Option.isSome)).1.covers.check_eq
  rw [List.length_map, ← rows_offsetsOf] at hmask
  rw [ofLengths, ← offsetsOf]
  simp only [ofLists, bind_eq_ok, Checked.require_eq_ok, ListRows.length, last_offsetsOf, hmask,
    pure, Except.pure, Except.ok.injEq, exists_const, true_and]
  constructor
  · rintro ⟨-, hlast, rfl⟩
    exact ⟨hlast, rfl⟩
  · rintro ⟨hlast, rfl⟩
    exact ⟨hfirst, hlast, rfl⟩

/-- **Lists of given lengths have them exactly if their total is an offset.** Every column that is
accepted has a row for each length, null where the length is absent. Its rows have their lengths,
one after the other and inside the child, exactly if the total of the lengths is no more than the
greatest offset. -/
theorem ofLengths_exact {child c : Column} {lengths : List (Option Nat)}
    (h : ofLengths child lengths = .ok c) :
    ∃ rows : ListRows, c = list rows child ∧ rows.length = lengths.length ∧
      (∀ i n, lengths[i]? = some n → rows.validity.isNull i = .ok n.isNone) ∧
      (KeepsLengths rows lengths child.length ↔
        elementCount lengths ≤ Offsets.greatest listOffsetWidth) := by
  obtain ⟨hlast, rfl⟩ := ofLengths_eq_ok.1 h
  refine ⟨_, rfl, rows_offsetsOf lengths, ?null, ?keeps, ?fits⟩
  case null =>
    intro i n hget
    have hvalid : (lengths.map Option.isSome)[i]? = some n.isSome := by
      rw [List.getElem?_map, hget, Option.map_some]
    rw [Validity.isNull_ofList hvalid, Option.not_isSome]
  case keeps =>
    intro hkeeps
    have htotal := hkeeps.take_le (Nat.le_refl lengths.length)
    rwa [List.take_length] at htotal
  case fits =>
    intro htotal
    rw [Offsets.toNat_ofNat_of_le htotal] at hlast
    exact keepsLengths_of_le htotal hlast

/-- Two rows over three elements, with a null row between them. -/
theorem ofLengths_exact_between :
    let child : Column := fixed .uint32 ⟨[7, 8, 9], none⟩
    let rows : ListRows := ⟨[0, 2, 2, 3], .ofList [true, false, true]⟩
    let lengths := [some 2, none, some 1]
    ofLengths child lengths = .ok (list rows child) ∧ KeepsLengths rows lengths child.length := by
  intro child rows lengths
  have hmade : ofLengths child lengths = .ok (list rows child) :=
    ofLengths_eq_ok.2 ⟨by decide, rfl⟩
  obtain ⟨_, hc, -, -, hkeeps⟩ := ofLengths_exact hmade
  obtain rfl := (list.inj hc).1
  exact ⟨hmade, hkeeps.2 (by decide)⟩

/-- A single row of one element more than there are words is accepted over a child of one element,
and covers that one. -/
theorem ofLengths_cuts_total :
    let child : Column := fixed .uint32 ⟨[0], none⟩
    let rows : ListRows := ⟨[0, 1], none⟩
    ofLengths child [some 4294967297] = .ok (list rows child) ∧ rows.offsets.range 0 = .ok (0, 1) ∧
      ¬ KeepsLengths rows [some 4294967297] child.length := by
  refine ⟨rfl, rfl, ?_⟩
  intro hkeeps
  have hrange := Except.ok.inj (hkeeps 0 4294967297 rfl).1
  exact absurd hrange (by decide)

end Column

end Columnar
