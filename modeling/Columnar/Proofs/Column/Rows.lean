import Columnar.Proofs.Bits.Mask
import Columnar.Proofs.Column.Offsets

/-!
# Rows of columns

The rows of a range of a column are its validity bits zipped with what is stored there: slots, bits,
or the parts that the offsets give. From this a **canonical column is determined by its type and its
rows**: the validity bits give the mask, the parts give the offsets and the buffer, and the rows of
the child give the child.
-/

namespace Columnar

/-! ## Lists -/

theorem zipWith_map_range {α β γ : Type} (g : α → β → γ) (a : Nat → α) (b : Nat → β) (n : Nat) :
    List.zipWith g ((List.range n).map a) ((List.range n).map b) =
      (List.range n).map fun i => g (a i) (b i) := by
  rw [List.zipWith_map, List.zipWith_self]

theorem map_getD_range {α : Type} (xs : List α) (d : α) {offset len : Nat}
    (h : offset + len ≤ xs.length) :
    (List.range len).map (fun j => xs.getD (offset + j) d) = (xs.drop offset).take len := by
  apply List.ext_getElem (by simp; omega)
  intro i hi hi'
  have hlt : i < len := by simpa using hi
  have hget : offset + i < xs.length := by omega
  simp [List.getD_eq_getElem?_getD, hget]

/-- Zipping with a constructor loses nothing. -/
theorem zipWith_inj {α β γ : Type} {g : α → β → γ}
    (hg : ∀ a b a' b', g a b = g a' b' → a = a' ∧ b = b') {as as' : List α} {bs bs' : List β}
    (hl : as.length = bs.length) (hl' : as'.length = bs'.length)
    (h : List.zipWith g as bs = List.zipWith g as' bs') : as = as' ∧ bs = bs' := by
  have hlen : as.length = as'.length := by
    have hzip := congrArg List.length h
    rwa [List.length_zipWith, List.length_zipWith, ← hl, ← hl', Nat.min_self, Nat.min_self] at hzip
  have hpair : ∀ (i : Nat) (ha : i < as.length) (ha' : i < as'.length) (hb : i < bs.length)
      (hb' : i < bs'.length), as[i] = as'[i] ∧ bs[i] = bs'[i] := by
    intro i ha ha' hb hb'
    have hzip := List.getElem_of_eq h (i := i) (by rw [List.length_zipWith]; omega)
    rw [List.getElem_zipWith, List.getElem_zipWith] at hzip
    exact hg _ _ _ _ hzip
  constructor
  · exact List.ext_getElem hlen fun i ha ha' => (hpair i ha ha' (hl ▸ ha) (hl' ▸ ha')).1
  · have hlen' : bs.length = bs'.length := by rw [← hl, ← hl', hlen]
    exact List.ext_getElem hlen' fun i hb hb' => (hpair i (hl ▸ hb) (hl' ▸ hb') hb hb').2

/-! ## Validity -/

namespace Validity

/-- The validity bits of `len` rows from `offset` on. -/
def bits (v : Validity) (offset len : Nat) : List Bool :=
  (List.range len).map fun j => v.bit (offset + j)

@[simp] theorem length_bits (v : Validity) (offset len : Nat) :
    (v.bits offset len).length = len := by
  simp [bits]

theorem bits_none (offset len : Nat) : bits none offset len = List.replicate len true :=
  map_range_const true len

theorem bits_whole (m : Bitmask) : bits (some m) 0 m.len = m.toList := m.toList_whole

theorem bits_window (m : Bitmask) (offset len : Nat) :
    bits (some m) offset len = (Window.mk m offset len).toList := rfl

theorem eq_replicate_of_no_null {bits : List Bool} (h : false ∉ bits) :
    bits = List.replicate bits.length true := by
  apply List.eq_replicate_iff.2
  refine ⟨rfl, ?_⟩
  intro b hb
  cases b with
  | true => rfl
  | false => exact absurd hb h

theorem isNull_eq {v : Validity} {rows i : Nat} (h : v.Covers rows) (hi : i < rows) :
    v.isNull i = .ok (!v.bit i) := by
  cases v with
  | none => rfl
  | some m =>
    have hlt : i < m.len := Nat.lt_of_lt_of_eq hi h.symm
    simp [isNull, Bitmask.get, hlt, bit, bind, Except.bind, pure, Except.pure, Except.map]

theorem Covers.check_eq {v : Validity} {rows : Nat} (h : v.Covers rows) :
    v.check rows = .ok () := by
  cases v with
  | none => rfl
  | some m => exact Checked.require_of h

theorem canonical_mask {m : Bitmask} (htight : m.Tight) (hnull : false ∈ m.toList) :
    Canonical (some m) m.len := by
  obtain ⟨i, hi, hclear⟩ := List.mem_map.1 hnull
  exact ⟨rfl, htight, i, List.mem_range.1 hi, hclear⟩

theorem Canonical.ext {u v : Validity} {rows : Nat} (hu : u.Canonical rows)
    (hv : v.Canonical rows) (h : ∀ i < rows, u.bit i = v.bit i) : u = v := by
  cases u with
  | none =>
    cases v with
    | none => rfl
    | some m =>
      -- A mask that is there has a null among its bits, which no absent mask has.
      obtain ⟨-, -, i, hi, hclear⟩ := hv
      have := h i hi
      simp [bit, hclear] at this
  | some m =>
    cases v with
    | none =>
      obtain ⟨-, -, i, hi, hclear⟩ := hu
      have := h i hi
      simp [bit, hclear] at this
    | some n =>
      obtain ⟨hm, hmt, -⟩ := hu
      obtain ⟨hn, hnt, -⟩ := hv
      refine congrArg some (hmt.ext hnt ?_)
      rw [Bitmask.toList, Bitmask.toList, hm, hn]
      exact map_range_congr fun i hi => h i hi

/-- The validity of rows pushed one by one is canonical and has their bits. -/
theorem ofList_spec (rows : List Bool) :
    (ofList rows).Canonical rows.length ∧ (ofList rows).bits 0 rows.length = rows := by
  obtain ⟨htight, hlist⟩ := Bitmask.tight_empty.foldl_push rows
  rw [Bitmask.toList_empty, List.nil_append] at hlist
  have hlen : (rows.foldl Bitmask.push .empty).len = rows.length := by
    rw [← Bitmask.length_toList, hlist]
  rw [ofList]
  generalize rows.foldl Bitmask.push .empty = m at htight hlist hlen
  rw [ofMask, Bitmask.allSet, Bitmask.countOnes, ← hlen, ← hlist]
  by_cases hnull : false ∈ m.toList
  · have hne : m.whole.countOnes ≠ m.len := Window.countOnes_ne_len.2 (m.toList_whole ▸ hnull)
    rw [if_neg (by simpa using hne)]
    exact ⟨canonical_mask htight hnull, bits_whole m⟩
  · have heq : m.whole.countOnes = m.len :=
      Decidable.byContradiction fun hne => hnull (m.toList_whole ▸ Window.countOnes_ne_len.1 hne)
    rw [if_pos (by simpa using heq), bits_none, ← m.length_toList]
    exact ⟨trivial, (eq_replicate_of_no_null hnull).symm⟩

theorem isNull_ofList {rows : List Bool} {i : Nat} {valid : Bool} (h : rows[i]? = some valid) :
    (ofList rows).isNull i = .ok !valid := by
  obtain ⟨hcanonical, hbits⟩ := ofList_spec rows
  obtain ⟨hi, rfl⟩ := List.getElem?_eq_some_iff.1 h
  have hget := congrArg (·[i]?) hbits
  simp only [bits, List.getElem?_map, List.getElem?_range hi, Option.map_some, Nat.zero_add, h,
    Option.some.injEq] at hget
  rw [isNull_eq hcanonical.covers hi, hget]

theorem bit_eq_of_bits_eq {u v : Validity} {rows : Nat} (h : u.bits 0 rows = v.bits 0 rows) :
    ∀ i < rows, u.bit i = v.bit i := by
  intro i hi
  have hget := congrArg (·[i]?) h
  simpa [bits, hi] using hget

end Validity

/-! ## Reading a row -/

namespace FixedColumn

variable {t : FixedType}

theorem slotAt_eq (c : FixedColumn t) {i : Nat} (hi : i < c.length) :
    c.slotAt i = .ok (c.slots.getD i 0) := by
  have hlt : i < c.slots.length := hi
  simp [slotAt, List.getD_eq_getElem?_getD, hlt]

theorem get_eq {c : FixedColumn t} (hc : c.validity.Covers c.length) {i : Nat} (hi : i < c.length) :
    c.get i = .ok (if c.validity.bit i then some (c.slots.getD i 0) else none) := by
  simp only [get, Validity.isNull_eq hc hi, c.slotAt_eq hi, bind, Except.bind]
  cases c.validity.bit i <;> rfl

end FixedColumn

namespace BooleanColumn

theorem valueAt_eq (c : BooleanColumn) {i : Nat} (hi : i < c.length) :
    c.valueAt i = .ok (c.values.bit i) := by
  have hlt : i < c.values.len := hi
  simp [valueAt, Bitmask.get, hlt, bind, Except.bind, pure, Except.pure]

theorem get_eq {c : BooleanColumn} (hc : c.validity.Covers c.length) {i : Nat} (hi : i < c.length) :
    c.get i = .ok (if c.validity.bit i then some (c.values.bit i) else none) := by
  simp only [get, Checked.require_of hi, Validity.isNull_eq hc hi, c.valueAt_eq hi, bind,
    Except.bind]
  cases c.validity.bit i <;> rfl

end BooleanColumn

theorem TextColumn.bytesAt_eq {t : TextType} {c : TextColumn t}
    (hc : c.offsets.Ascend c.bytes.length) {i : Nat} (hi : i < c.length) :
    c.bytesAt i = .ok (c.offsets.part c.bytes i) := by
  have hrow : i + 1 ≤ c.offsets.rows := hi
  have hstart := hc.start_add_payload hrow
  have hlimit := hc.le_limit hrow
  have hin : (c.offsets.offsetAt i).toNat ≤ (c.offsets.offsetAt (i + 1)).toNat := by omega
  simp [bytesAt, Offsets.range, hc.extent_eq hrow, bufferPart, hin, hlimit, Offsets.part,
    Offsets.payload, bind, Except.bind, pure, Except.pure]

/-! ## Ranges of rows -/

namespace Column

/-- `len` rows from `offset` on. -/
def rowsFrom (c : Column) (offset len : Nat) : List Row :=
  (List.range len).map fun j => c.row (offset + j)

@[simp] theorem length_rowsFrom (c : Column) (offset len : Nat) :
    (c.rowsFrom offset len).length = len := by
  simp [rowsFrom]

theorem rows_eq_rowsFrom (c : Column) : c.rows = c.rowsFrom 0 c.length := by
  simp [rows, rowsFrom]

theorem rowsFrom_one (c : Column) (i : Nat) : c.rowsFrom i 1 = [c.row i] := rfl

theorem row_of_rows_eq {c : Column} {n : Nat} {f : Nat → Row} (h : c.rows = (List.range n).map f) :
    c.length = n ∧ ∀ i < n, c.row i = f i := by
  have hlen : c.length = n := by simpa using congrArg List.length h
  refine ⟨hlen, fun i hi => ?_⟩
  have hget := congrArg (·[i]?) h
  simpa [rows, hlen, hi] using hget

theorem row_of_rows_eq_rowsFrom {c d : Column} {offset len i : Nat}
    (h : d.rows = c.rowsFrom offset len) (hi : i < len) : d.row i = c.row (offset + i) :=
  (row_of_rows_eq h).2 i hi

theorem rowsFrom_add (c : Column) (offset m n : Nat) :
    c.rowsFrom offset (m + n) = c.rowsFrom offset m ++ c.rowsFrom (offset + m) n := by
  simp only [rowsFrom, map_range_add, Nat.add_assoc]

theorem rowsFrom_eq (c : Column) {offset len : Nat} (h : offset + len ≤ c.length) :
    c.rowsFrom offset len = (c.rows.drop offset).take len := by
  apply List.ext_getElem (by simp; omega)
  intro i hi hi'
  simp [rowsFrom, rows]

theorem rowsFrom_fixed {t : FixedType} (c : FixedColumn t) {offset len : Nat}
    (h : offset + len ≤ c.length) :
    (fixed t c).rowsFrom offset len =
      List.zipWith (Row.fixed t) (c.validity.bits offset len) ((c.slots.drop offset).take len) := by
  rw [← map_getD_range c.slots 0 h, Validity.bits, zipWith_map_range]
  rfl

theorem rowsFrom_boolean (c : BooleanColumn) (offset len : Nat) :
    (boolean c).rowsFrom offset len =
      List.zipWith Row.boolean (c.validity.bits offset len) (c.window offset len).toList := by
  rw [Validity.bits, Window.toList, BooleanColumn.window, zipWith_map_range]
  rfl

theorem rowsFrom_text {t : TextType} (c : TextColumn t) (offset len : Nat) :
    (text t c).rowsFrom offset len =
      List.zipWith Row.text (c.validity.bits offset len)
        (c.offsets.partsFrom c.bytes offset len) := by
  rw [Validity.bits, Offsets.partsFrom, zipWith_map_range]
  rfl

theorem rowsFrom_list (r : ListRows) (child : Column) (offset len : Nat) :
    (list r child).rowsFrom offset len =
      List.zipWith Row.list (r.validity.bits offset len)
        (r.offsets.partsFrom child.rows offset len) := by
  rw [Validity.bits, Offsets.partsFrom, zipWith_map_range]
  rfl

/-! ## Whole columns -/

theorem rows_fixed {t : FixedType} (c : FixedColumn t) :
    (fixed t c).rows = List.zipWith (Row.fixed t) (c.validity.bits 0 c.length) c.slots := by
  have hslots : (c.slots.drop 0).take c.length = c.slots := List.take_of_length_le (Nat.le_refl _)
  rw [rows_eq_rowsFrom, length, rowsFrom_fixed c (by simp), hslots]

theorem rows_boolean (c : BooleanColumn) :
    (boolean c).rows =
      List.zipWith Row.boolean (c.validity.bits 0 c.length) c.values.toList := by
  have hwhole : (c.window 0 c.length).toList = c.values.toList := c.values.toList_whole
  rw [rows_eq_rowsFrom, length, rowsFrom_boolean, hwhole]

section Whole

variable {v : Validity} {bits : List Bool}

theorem whole_fixed {t : FixedType} {slots : List t.Slot} (hv : v.Canonical slots.length)
    (hbits : v.bits 0 slots.length = bits) :
    (fixed t ⟨slots, v⟩).Canonical ∧
      (fixed t ⟨slots, v⟩).rows = List.zipWith (Row.fixed t) bits slots := by
  refine ⟨hv, ?_⟩
  rw [rows_fixed, FixedColumn.length, hbits]

theorem whole_boolean {values : Bitmask} (htight : values.Tight) (hv : v.Canonical values.len)
    (hbits : v.bits 0 values.len = bits) :
    (boolean ⟨values, v⟩).Canonical ∧
      (boolean ⟨values, v⟩).rows = List.zipWith Row.boolean bits values.toList := by
  refine ⟨⟨htight, hv⟩, ?_⟩
  rw [rows_boolean, BooleanColumn.length, hbits]

theorem whole_text {t : TextType} {offsets : Offsets t.offsetWidth} {parts : List Bytes}
    (hcuts : offsets.Cuts parts) (hv : v.Canonical parts.length)
    (hbits : v.bits 0 parts.length = bits) :
    (text t ⟨offsets, parts.flatten, v⟩).Canonical ∧
      (text t ⟨offsets, parts.flatten, v⟩).rows = List.zipWith Row.text bits parts := by
  have hrows := hcuts.rows_eq
  refine ⟨⟨hcuts.fill, ?_⟩, ?_⟩
  · rwa [TextColumn.length, hrows]
  · rw [rows_eq_rowsFrom, rowsFrom_text, length, TextColumn.length, hrows, hbits,
      hcuts.partsFrom_eq]

/-- A canonical child whose rows are parts, put together, makes a canonical list column with the
offsets that cut them. -/
theorem whole_list {offsets : Offsets listOffsetWidth} {parts : List (List Row)} {child : Column}
    (hcuts : offsets.Cuts parts) (hv : v.Canonical parts.length)
    (hbits : v.bits 0 parts.length = bits) (hc : child.Canonical)
    (hchild : child.rows = parts.flatten) :
    (list ⟨offsets, v⟩ child).Canonical ∧
      (list ⟨offsets, v⟩ child).rows = List.zipWith Row.list bits parts := by
  have hrows := hcuts.rows_eq
  have hlen : child.length = parts.flatten.length := by rw [← hchild, length_rows]
  refine ⟨⟨hlen ▸ hcuts.fill, ?_, hc⟩, ?_⟩
  · rwa [ListRows.length, hrows]
  · rw [rows_eq_rowsFrom, rowsFrom_list, length, ListRows.length, hrows, hbits, hchild,
      hcuts.partsFrom_eq]

end Whole

/-! ## Canonical columns -/

theorem rows_inj {α : Type} {g : Bool → α → Row}
    (hg : ∀ a b a' b', g a b = g a' b' → a = a' ∧ b = b') {u v : Validity} {n : Nat}
    {xs ys : List α} (hx : xs.length = n) (hy : ys.length = n)
    (h : List.zipWith g (u.bits 0 n) xs = List.zipWith g (v.bits 0 n) ys) :
    (∀ i < n, u.bit i = v.bit i) ∧ xs = ys := by
  obtain ⟨hbits, hvalues⟩ := zipWith_inj hg (by simp [hx]) (by simp [hy]) h
  exact ⟨Validity.bit_eq_of_bits_eq hbits, hvalues⟩

theorem fixed_ext {t : FixedType} {a b : FixedColumn t} (ha : a.validity.Canonical a.length)
    (hb : b.validity.Canonical b.length) (h : (fixed t a).rows = (fixed t b).rows) : a = b := by
  have hlen : b.length = a.length := by simpa [length] using (congrArg List.length h).symm
  rw [rows_fixed, rows_fixed, hlen] at h
  obtain ⟨hbits, hvalues⟩ := rows_inj (fun _ _ _ _ h => by cases h; exact ⟨rfl, rfl⟩) rfl hlen h
  rw [hlen] at hb
  exact FixedColumn.ext hvalues (ha.ext hb hbits)

theorem boolean_ext {a b : BooleanColumn} (ha : (boolean a).Canonical) (hb : (boolean b).Canonical)
    (h : (boolean a).rows = (boolean b).rows) : a = b := by
  obtain ⟨hatight, ha⟩ := ha
  obtain ⟨hbtight, hb⟩ := hb
  have hlen : b.length = a.length := by simpa [length] using (congrArg List.length h).symm
  rw [rows_boolean, rows_boolean, hlen] at h
  obtain ⟨hbits, hvalues⟩ := rows_inj (fun _ _ _ _ h => by cases h; exact ⟨rfl, rfl⟩)
    a.values.length_toList (b.values.length_toList.trans hlen) h
  rw [hlen] at hb
  exact BooleanColumn.ext (hatight.ext hbtight hvalues) (ha.ext hb hbits)

theorem text_ext {t : TextType} {a b : TextColumn t} (ha : (text t a).Canonical)
    (hb : (text t b).Canonical) (h : (text t a).rows = (text t b).rows) : a = b := by
  obtain ⟨hafill, ha⟩ := ha
  obtain ⟨hbfill, hb⟩ := hb
  have hlen : b.length = a.length := by simpa [length] using (congrArg List.length h).symm
  rw [rows_eq_rowsFrom, rows_eq_rowsFrom, length, length, rowsFrom_text, rowsFrom_text, hlen] at h
  obtain ⟨hbits, hparts⟩ := rows_inj (fun _ _ _ _ h => by cases h; exact ⟨rfl, rfl⟩)
    (Offsets.length_partsFrom ..) (Offsets.length_partsFrom ..) h
  obtain ⟨hoffsets, hbytes⟩ := hafill.ext hbfill hlen.symm hparts
  rw [hlen] at hb
  exact TextColumn.ext hoffsets hbytes (ha.ext hb hbits)

/-- The column with the name of its column of the null type forgotten, if it has one inside. Such a
column has no buffers, so its name is all that there is of it. -/
def anonymous : Column → Column
  | fixed t c => fixed t c
  | boolean c => boolean c
  | text t c => text t c
  | list r child => list r child.anonymous
  | null _ => null .untyped

theorem anonymous_eq_self {c : Column} (h : c.type.Concrete) : c.anonymous = c := by
  induction c with
  | fixed | boolean | text => rfl
  | list r child ih => rw [anonymous, ih h]
  | null kind => exact h.elim

/-- Rows determine a canonical column of any type, but for the name of a column of the null type. -/
theorem Canonical.anonymous_ext {c d : Column} (hc : c.Canonical) (hd : d.Canonical)
    (htype : c.type = d.type) (hrows : c.rows = d.rows) : c.anonymous = d.anonymous := by
  induction c generalizing d with
  | null kind =>
    cases d with
    | null => rfl
    | _ => cases htype
  | fixed t a =>
    cases d with
    | fixed u b =>
      cases htype
      rw [fixed_ext hc hd hrows]
    | _ => cases htype
  | boolean a =>
    cases d with
    | boolean b => rw [boolean_ext hc hd hrows]
    | _ => cases htype
  | text t a =>
    cases d with
    | text u b =>
      cases htype
      rw [text_ext hc hd hrows]
    | _ => cases htype
  | list r child ih =>
    cases d with
    | list s child' =>
      obtain ⟨hrfill, hr, hchild⟩ := hc
      obtain ⟨hsfill, hs, hchild'⟩ := hd
      have hlen : s.length = r.length := by simpa [length] using (congrArg List.length hrows).symm
      rw [rows_eq_rowsFrom, rows_eq_rowsFrom, length, length, rowsFrom_list, rowsFrom_list, hlen]
        at hrows
      obtain ⟨hbits, hparts⟩ := rows_inj (fun _ _ _ _ h => by cases h; exact ⟨rfl, rfl⟩)
        (Offsets.length_partsFrom ..) (Offsets.length_partsFrom ..) hrows
      rw [← length_rows] at hrfill hsfill
      -- The parts of both lists, put together, are the rows of both children.
      obtain ⟨hoffsets, helements⟩ := hrfill.ext hsfill hlen.symm hparts
      rw [hlen] at hs
      have hchildType : child.type = child'.type := by injection htype
      rw [anonymous, anonymous, ListRows.ext hoffsets (hr.ext hs hbits),
        ih hchild hchild' hchildType helements]
    | _ => cases htype

/-- **Rows determine a canonical column of a concrete type**, buffers and all. -/
theorem Canonical.ext {c d : Column} (hconcrete : c.type.Concrete) (hc : c.Canonical)
    (hd : d.Canonical) (htype : c.type = d.type) (hrows : c.rows = d.rows) : c = d := by
  rw [← anonymous_eq_self hconcrete, hc.anonymous_ext hd htype hrows,
    anonymous_eq_self (htype ▸ hconcrete)]

/-- The name of the column of the null type inside, if there is one. -/
def leafKind : Column → Option NullKind
  | null kind => some kind
  | list _ child => child.leafKind
  | fixed .. | boolean _ | text .. => none

theorem eq_of_anonymous_eq {c d : Column} (h : c.anonymous = d.anonymous)
    (hleaf : c.leafKind = d.leafKind) : c = d := by
  induction c generalizing d with
  | list r child ih =>
    cases d with
    | list s child' =>
      obtain ⟨rfl, hchild⟩ := list.inj h
      rw [ih hchild hleaf]
    | _ => cases h
  | null kind =>
    cases d with
    | null kind' =>
      cases hleaf
      rfl
    | _ => cases h
  | fixed | boolean | text =>
    cases d with
    | fixed | boolean | text => exact h
    | list | null => cases h

/-- Rows and the name of the null type inside determine a canonical column of any type. -/
theorem Canonical.ext_of_leafKind {c d : Column} (hc : c.Canonical) (hd : d.Canonical)
    (htype : c.type = d.type) (hleaf : c.leafKind = d.leafKind) (hrows : c.rows = d.rows) : c = d :=
  eq_of_anonymous_eq (hc.anonymous_ext hd htype hrows) hleaf

/-! ## Nulls -/

theorem valid_row_of_lt {c : Column} {i : Nat} (hi : i < c.length) :
    (c.row i).valid = c.validity.bit i := by
  apply valid_row _ i
  rintro kind rfl
  exact Nat.not_lt_zero i hi

/-- **A well-formed column tells which of its rows are null.** -/
theorem isNull_eq {c : Column} (hc : c.WellFormed) {i : Nat} (hi : i < c.length) :
    c.isNull i = .ok !(c.row i).valid := by
  rw [valid_row_of_lt hi]
  exact Validity.isNull_eq hc.covers hi

theorem countP_rowsFrom {c : Column} {offset len : Nat} (hr : offset + len ≤ c.length) :
    ((c.rowsFrom offset len).countP fun r => !r.valid) =
      (c.validity.bits offset len).count false := by
  have hvalid : (c.rowsFrom offset len).map Row.valid = c.validity.bits offset len := by
    rw [rowsFrom, List.map_map]
    apply map_range_congr
    intro j hj
    exact valid_row_of_lt (by omega)
  rw [← hvalid, List.count, List.countP_map]
  congr 1
  funext r
  cases h : r.valid <;> simp [h]

end Column

/-- **So does a view** of one. -/
theorem View.isNull_eq {v : View} (hv : v.column.WellFormed) {i : Nat} (hi : i < v.len) :
    v.isNull i = .ok !(v.row i).valid := by
  have hbounds := v.in_bounds
  rw [isNull, Checked.require_of hi, ok_bind, Column.isNull_eq hv (by omega)]
  rfl

/-- **A view counts its null rows.** -/
theorem View.nullCount_eq (v : View) : v.nullCount = v.rows.countP fun r => !r.valid := by
  have hrows : v.rows = v.column.rowsFrom v.offset v.len := rfl
  rw [hrows, Column.countP_rowsFrom v.in_bounds, nullCount, validity]
  cases v.column.validity with
  | none => simp [Validity.window, Validity.bits_none, List.count_replicate]
  | some m => exact Window.countZeros_eq ⟨m, v.offset, v.len⟩

/-- **A well-formed column counts its null rows.** -/
theorem Column.nullCount_eq {c : Column} (hc : c.WellFormed) :
    c.nullCount = c.rows.countP fun r => !r.valid := by
  have hwhole : c.nullCount = (View.whole c).nullCount := by
    have hcovers := hc.covers
    show c.validity.nullCount = (c.validity.window 0 c.length).elim 0 Window.countZeros
    cases hv : c.validity with
    | none => rfl
    | some m =>
      rw [hv] at hcovers
      exact congrArg (fun rows => (Window.mk m 0 rows).countZeros) hcovers
  have hrows : (View.whole c).rows = c.rowsFrom 0 c.length := rfl
  rw [hwhole, View.nullCount_eq, hrows, ← rows_eq_rowsFrom]

/-! ## Outcomes -/

/-- The outcome is the result, unless an allocation is refused. -/
def Yields {α : Type} (x : Except Failure α) (a : α) : Prop :=
  (∃ f, x = .error f ∧ f.IsAllocation) ∨ x = .ok a

section Yields

variable {α β : Type} {x : Except Failure α} {a : α}

theorem Yields.bind {f : α → Except Failure β} {b : β} (hx : Yields x a) (hf : Yields (f a) b) :
    Yields (x >>= f) b := by
  rcases hx with ⟨e, rfl, halloc⟩ | rfl
  · exact .inl ⟨e, rfl, halloc⟩
  · exact hf

/-- What succeeds was refused nothing. -/
theorem Yields.eq_ok (h : Yields x a) (hok : x.isOk = true) : x = .ok a := by
  rcases h with ⟨f, rfl, -⟩ | h
  · cases hok
  · exact h

end Yields

/-- The outcome is the canonical column of the rows, unless an allocation is refused. -/
def Delivers (x : Except Failure Column) (type : DataType) (rows : List Row) : Prop :=
  (∃ f, x = .error f ∧ f.IsAllocation) ∨
    ∃ out, x = .ok out ∧ out.Canonical ∧ out.type = type ∧ out.rows = rows

/-- What is delivered is the one canonical column of the rows. -/
theorem Delivers.eq {x : Except Failure Column} {out : Column}
    (h : Delivers x out.type out.rows) (hconcrete : out.type.Concrete) (hout : out.Canonical) :
    Yields x out := by
  rcases h with halloc | ⟨other, hx, hother, htype, hrows⟩
  · exact .inl halloc
  · have hconcrete' : other.type.Concrete := htype ▸ hconcrete
    rw [hother.ext hconcrete' hout htype hrows] at hx
    exact .inr hx

end Columnar
