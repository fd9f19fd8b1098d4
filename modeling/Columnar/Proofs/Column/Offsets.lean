import Columnar.Column.Form
import Columnar.Proofs.Bits.Mask
import Columnar.Row

/-!
# Offsets and the parts that they cut

Offsets have two readings. Those of a source **ascend**: row `i` is the part of a buffer between
offset `i` and the next one, consecutive rows are one consecutive part, and there may be more buffer
on either side. Those of an output **cut**: they are the exact running totals, over unbounded
numbers, of the lengths of parts which together are the whole buffer. Appending to an output keeps
the cut, as long as the total is no greater than the greatest offset.
-/

namespace Columnar

namespace Offsets

variable {w : Nat} {α : Type}

theorem offsetAt_of_lt {offsets : Offsets w} {i : Nat} (h : i < offsets.length) :
    offsets.offsetAt i = offsets[i] := by
  simp [offsetAt, h]

theorem toNat_ofNat_of_le {n : Nat} (h : n ≤ greatest w) : (BitVec.ofNat w n).toNat = n := by
  have hpos : 0 < 2 ^ w := Nat.two_pow_pos w
  simp only [greatest, BitVec.toNat_allOnes] at h
  rw [BitVec.toNat_ofNat, Nat.mod_eq_of_lt (by omega)]

theorem toNat_le_greatest (o : BitVec w) : o.toNat ≤ greatest w := by
  rw [greatest, BitVec.toNat_allOnes]
  exact Nat.le_sub_one_of_lt o.isLt

theorem last_eq (offsets : Offsets w) : offsets.last = offsets.offsetAt offsets.rows := by
  rw [last, offsetAt, rows, List.getLastD_eq_getLast?, List.getLast?_eq_getElem?,
    List.getD_eq_getElem?_getD]

/-- Offsets that can be read up to the end of some rows are moved one for each row. -/
theorem length_moved {offsets : Offsets w} {first len : Nat} {ends : BitVec w × BitVec w}
    (h : offsets.extent first len = .ok ends) (base : BitVec w) :
    (offsets.moved first len base).length = len := by
  obtain ⟨_, -, h⟩ := bind_eq_ok.1 h
  obtain ⟨stop, hread, -⟩ := bind_eq_ok.1 h
  have hstop : first + len < offsets.length := by
    refine Nat.lt_of_not_le fun hle => ?_
    rw [read, List.getElem?_eq_none hle] at hread
    cases hread
  rw [moved, List.length_map, List.length_take, List.length_drop]
  omega

theorem length_of_bufferPart {buffer part : List α} {start stop : Nat}
    (h : bufferPart buffer start stop = .ok part) : part.length = stop - start := by
  obtain ⟨_, hrange, h⟩ := bind_eq_ok.1 h
  obtain ⟨hle, hstop⟩ := Checked.require_eq_ok.1 hrange
  cases h
  rw [List.length_take, List.length_drop]
  omega

/-! ## Sources -/

section Ascend

variable {offsets : Offsets w} {limit : Nat} (h : offsets.Ascend limit)
include h

theorem Ascend.length_eq : offsets.length = offsets.rows + 1 := by
  have := List.length_pos_iff.2 h.1
  rw [rows]
  omega

theorem Ascend.mono {i j : Nat} (hij : i ≤ j) (hj : j ≤ offsets.rows) :
    (offsets.offsetAt i).toNat ≤ (offsets.offsetAt j).toNat := by
  have hlen := h.length_eq
  rcases Nat.lt_or_eq_of_le hij with hlt | rfl
  · rw [offsetAt_of_lt (by omega), offsetAt_of_lt (by omega)]
    exact BitVec.le_def.1 (List.pairwise_iff_getElem.1 h.2.1 i j (by omega) (by omega) hlt)
  · exact Nat.le_refl _

theorem Ascend.le_limit {j : Nat} (hj : j ≤ offsets.rows) :
    (offsets.offsetAt j).toNat ≤ limit := by
  have hlast := h.2.2
  rw [last_eq] at hlast
  exact Nat.le_trans (h.mono hj (Nat.le_refl _)) hlast

theorem Ascend.read_eq {i : Nat} (hi : i ≤ offsets.rows) :
    offsets.read i = .ok (offsets.offsetAt i) := by
  have hlt : i < offsets.length := by
    have := h.length_eq
    omega
  simp [read, offsetAt, hlt]

theorem Ascend.extent_eq {first len : Nat} (hr : first + len ≤ offsets.rows) :
    offsets.extent first len = .ok (offsets.offsetAt first, offsets.offsetAt (first + len)) := by
  simp [extent, h.read_eq hr, h.read_eq (show first ≤ offsets.rows by omega), bind, Except.bind,
    pure, Except.pure]

theorem Ascend.extent_past_end {first len : Nat} (hr : offsets.rows < first + len) :
    ∃ f, offsets.extent first len = .error f := by
  have hlen := h.length_eq
  have hstop : offsets.read (first + len) = .error .outOfRange := by
    simp [read, show offsets.length ≤ first + len by omega]
  rw [extent, hstop]
  cases offsets.read first <;> exact ⟨_, rfl⟩

theorem Ascend.toNat_sub {first len : Nat} (hr : first + len ≤ offsets.rows) :
    (offsets.offsetAt (first + len) - offsets.offsetAt first).toNat =
      offsets.payload first len := by
  rw [BitVec.toNat_sub_of_le (BitVec.le_def.2 (h.mono (Nat.le_add_right _ _) hr)), payload]

theorem Ascend.place_eq {i : Nat} (hi : i < offsets.rows) :
    offsets.place i = .ok ((offsets.offsetAt i).toNat, offsets.payload i 1) := by
  have hle := h.mono (Nat.le_add_right i 1) hi
  simp [place, range, h.extent_eq (show i + 1 ≤ _ from hi), hle, payload, bind, Except.bind, pure,
    Except.pure]

theorem Ascend.payload_add {first a b : Nat} (hr : first + (a + b) ≤ offsets.rows) :
    offsets.payload first (a + b) = offsets.payload first a + offsets.payload (first + a) b := by
  have h1 := h.mono (Nat.le_add_right first a) (by omega)
  have h2 := h.mono (Nat.le_add_right (first + a) b) (by omega)
  rw [payload, payload, payload, Nat.add_assoc] at *
  omega

theorem Ascend.start_add_payload {first len : Nat} (hr : first + len ≤ offsets.rows) :
    (offsets.offsetAt first).toNat + offsets.payload first len =
      (offsets.offsetAt (first + len)).toNat := by
  have := h.mono (Nat.le_add_right first len) hr
  rw [payload]
  omega

end Ascend

/-- The parts of a buffer that `len` rows from `first` on span. -/
def partsFrom (offsets : Offsets w) (buffer : List α) (first len : Nat) : List (List α) :=
  (List.range len).map fun j => offsets.part buffer (first + j)

@[simp] theorem length_partsFrom (offsets : Offsets w) (buffer : List α) (first len : Nat) :
    (offsets.partsFrom buffer first len).length = len := by
  simp [partsFrom]

theorem partsFrom_succ (offsets : Offsets w) (buffer : List α) (first len : Nat) :
    offsets.partsFrom buffer first (len + 1) =
      offsets.partsFrom buffer first len ++ [offsets.part buffer (first + len)] := by
  simp [partsFrom, List.range_succ]

theorem Ascend.length_part {offsets : Offsets w} {buffer : List α}
    (h : offsets.Ascend buffer.length) {i : Nat} (hi : i < offsets.rows) :
    (offsets.part buffer i).length = offsets.payload i 1 := by
  have hstart := h.start_add_payload (show i + 1 ≤ offsets.rows from hi)
  have hlimit := h.le_limit (show i + 1 ≤ offsets.rows from hi)
  rw [part, List.length_take, List.length_drop]
  omega

theorem Ascend.flatten_partsFrom {offsets : Offsets w} {buffer : List α}
    (h : offsets.Ascend buffer.length) {first len : Nat} (hr : first + len ≤ offsets.rows) :
    (offsets.partsFrom buffer first len).flatten =
      (buffer.drop (offsets.offsetAt first).toNat).take (offsets.payload first len) := by
  induction len with
  | zero => simp [partsFrom, payload]
  | succ len ih =>
    have hstart := h.start_add_payload (show first + len ≤ offsets.rows by omega)
    rw [partsFrom_succ, List.flatten_append, ih (by omega), h.payload_add hr, List.take_add,
      List.drop_drop, hstart]
    simp [part]

theorem Ascend.length_flatten_partsFrom {offsets : Offsets w} {buffer : List α}
    (h : offsets.Ascend buffer.length) {first len : Nat} (hr : first + len ≤ offsets.rows) :
    (offsets.partsFrom buffer first len).flatten.length = offsets.payload first len := by
  have hstart := h.start_add_payload hr
  have hlimit := h.le_limit hr
  rw [h.flatten_partsFrom hr, List.length_take, List.length_drop]
  omega

theorem Ascend.bufferPart_eq {offsets : Offsets w} {buffer : List α}
    (h : offsets.Ascend buffer.length) {first len : Nat} (hr : first + len ≤ offsets.rows) :
    bufferPart buffer (offsets.offsetAt first).toNat (offsets.offsetAt (first + len)).toNat =
      .ok (offsets.partsFrom buffer first len).flatten := by
  have hmono := h.mono (Nat.le_add_right first len) hr
  have hlimit := h.le_limit hr
  rw [bufferPart, Checked.require_of ⟨hmono, hlimit⟩, h.flatten_partsFrom hr]
  rfl

/-! ## Outputs -/

/-- Where parts end that are put one after the other from `base` on. -/
def stops (base : Nat) : List (List α) → List Nat
  | [] => []
  | p :: rest => (base + p.length) :: stops (base + p.length) rest

theorem stops_append (base : Nat) (xs ys : List (List α)) :
    stops base (xs ++ ys) = stops base xs ++ stops (base + xs.flatten.length) ys := by
  induction xs generalizing base with
  | nil => simp [stops]
  | cons p xs ih => simp [stops, ih, Nat.add_assoc]

@[simp] theorem length_stops (base : Nat) (parts : List (List α)) :
    (stops base parts).length = parts.length := by
  induction parts generalizing base with
  | nil => rfl
  | cons p parts ih => simp [stops, ih]

/-- The offsets are the running totals of the parts' lengths. -/
def Cuts (offsets : Offsets w) (parts : List (List α)) : Prop :=
  offsets.map BitVec.toNat = 0 :: stops 0 parts

theorem cuts_zero : Cuts ([0] : Offsets w) ([] : List (List α)) := by
  simp [Cuts, stops]

theorem getElem?_stops (base : Nat) (parts : List (List α)) {i : Nat} (hi : i ≤ parts.length) :
    (base :: stops base parts)[i]? = some (base + (parts.take i).flatten.length) := by
  induction i generalizing base parts with
  | zero => simp
  | succ i ih =>
    cases parts with
    | nil => exact absurd hi (Nat.not_succ_le_zero i)
    | cons p parts =>
      rw [List.getElem?_cons_succ, stops, ih _ _ (Nat.le_of_succ_le_succ hi)]
      simp [Nat.add_assoc]

section Cuts

variable {offsets : Offsets w} {parts : List (List α)} (h : offsets.Cuts parts)
include h

theorem Cuts.length_eq : offsets.length = parts.length + 1 := by
  simpa using congrArg List.length h

theorem Cuts.rows_eq : offsets.rows = parts.length := by
  rw [rows, h.length_eq, Nat.add_sub_cancel]

theorem Cuts.toNat_offsetAt {i : Nat} (hi : i ≤ parts.length) :
    (offsets.offsetAt i).toNat = (parts.take i).flatten.length := by
  have hlt : i < offsets.length := by
    rw [h.length_eq]
    omega
  have hget := congrArg (·[i]?) h
  simp only [getElem?_stops 0 parts hi, List.getElem?_map, List.getElem?_eq_getElem hlt,
    Option.map_some, Option.some.injEq, Nat.zero_add] at hget
  rw [offsetAt_of_lt hlt, hget]

theorem Cuts.map_toNat : offsets.map BitVec.toNat =
    (List.range (parts.length + 1)).map fun i => (parts.take i).flatten.length := by
  apply List.ext_getElem (by simp [h.length_eq])
  intro i hi hi'
  have hle : i ≤ parts.length := by simpa [Nat.lt_succ_iff] using hi'
  have hlt : i < offsets.length := by simpa using hi
  rw [List.getElem_map, List.getElem_map, List.getElem_range, ← offsetAt_of_lt hlt,
    h.toNat_offsetAt hle]

theorem Cuts.toNat_last : offsets.last.toNat = parts.flatten.length := by
  rw [last_eq, h.rows_eq, h.toNat_offsetAt (Nat.le_refl _), List.take_length]

theorem Cuts.part_eq {i : Nat} (hi : i < parts.length) :
    offsets.part parts.flatten i = parts[i] := by
  have hsplit : parts.flatten =
      (parts.take i).flatten ++ (parts[i] ++ (parts.drop (i + 1)).flatten) := by
    rw [← List.flatten_cons, List.getElem_cons_drop, ← List.flatten_append, List.take_append_drop]
  have hpay : offsets.payload i 1 = parts[i].length := by
    rw [payload, h.toNat_offsetAt hi, h.toNat_offsetAt (Nat.le_of_lt hi), List.take_add_one,
      List.getElem?_eq_getElem hi, List.flatten_append, List.length_append]
    simp only [Option.toList_some, List.flatten_cons, List.flatten_nil, List.append_nil]
    omega
  rw [part, hpay, h.toNat_offsetAt (Nat.le_of_lt hi), hsplit, List.drop_left, List.take_left]

theorem Cuts.partsFrom_eq : offsets.partsFrom parts.flatten 0 parts.length = parts := by
  apply List.ext_getElem (by simp)
  intro i hi hi'
  simp [partsFrom, h.part_eq hi']

theorem Cuts.fill : offsets.Fill parts.flatten.length := by
  refine ⟨?_, ?_, h.toNat_last⟩
  · cases offsets with
    | nil => exact absurd h.length_eq (by simp)
    | cons o rest =>
      have h0 : o.toNat = 0 := (List.cons.inj h).1
      simp [BitVec.eq_of_toNat_eq (show o.toNat = (0 : BitVec w).toNat by simp [h0])]
  · apply List.pairwise_iff_getElem.2
    intro i j hi hj hij
    have hlen := h.length_eq
    rw [BitVec.le_def, ← offsetAt_of_lt hi, ← offsetAt_of_lt hj, h.toNat_offsetAt (by omega),
      h.toNat_offsetAt (by omega)]
    obtain ⟨k, rfl⟩ : ∃ k, j = i + k := ⟨j - i, by omega⟩
    rw [List.take_add, List.flatten_append, List.length_append]
    exact Nat.le_add_right _ _

/-- Parts that end where other parts' lengths say, put after those that are there. -/
theorem Cuts.append {more : Offsets w} {new : List (List α)}
    (hmore : more.map BitVec.toNat = stops parts.flatten.length new) :
    Cuts (offsets ++ more) (parts ++ new) := by
  rw [Cuts, List.map_append, show offsets.map BitVec.toNat = _ from h, hmore, stops_append,
    List.cons_append, Nat.zero_add]

theorem Cuts.append_one {o : BitVec w} {p : List α}
    (ho : o.toNat = parts.flatten.length + p.length) :
    Cuts (offsets ++ [o]) (parts ++ [p]) :=
  h.append (by simp [stops, ho])

theorem Cuts.append_empty (n : Nat) :
    Cuts (offsets ++ List.replicate n offsets.last) (parts ++ List.replicate n []) := by
  apply h.append
  rw [List.map_replicate, h.toNat_last]
  induction n with
  | zero => rfl
  | succ n ih => simpa [stops, List.replicate_succ] using ih

end Cuts

theorem Cuts.unique {a b : Offsets w} {parts : List (List α)} (ha : a.Cuts parts)
    (hb : b.Cuts parts) : a = b := by
  have hmap : a.map BitVec.toNat = b.map BitVec.toNat :=
    (show a.map BitVec.toNat = _ from ha).trans (show b.map BitVec.toNat = _ from hb).symm
  exact (List.map_inj_right fun _ _ => BitVec.eq_of_toNat_eq).1 hmap

/-- Where the parts of a source end, counted from any base. -/
theorem Ascend.stops_partsFrom {offsets : Offsets w} {buffer : List α}
    (h : offsets.Ascend buffer.length) {first len : Nat} (hr : first + len ≤ offsets.rows)
    (base : Nat) :
    stops base (offsets.partsFrom buffer first len) =
      (List.range len).map fun j => base + offsets.payload first (j + 1) := by
  induction len with
  | zero => rfl
  | succ len ih =>
    have hpay := h.payload_add (show first + (len + 1) ≤ offsets.rows from hr)
    rw [partsFrom_succ, stops_append, ih (by omega), List.range_succ, List.map_append,
      h.length_flatten_partsFrom (by omega)]
    simp [stops, h.length_part (show first + len < offsets.rows by omega), hpay, Nat.add_assoc]

/-- The moved offsets of a source's rows cut the same parts, after those that are there. The total
must be an offset. -/
theorem Cuts.append_moved {offsets source : Offsets w} {parts : List (List α)} {buffer : List α}
    (h : offsets.Cuts parts) (hs : source.Ascend buffer.length) {first len : Nat}
    (hr : first + len ≤ source.rows)
    (hfit : parts.flatten.length + source.payload first len ≤ greatest w) :
    Cuts (offsets ++ source.moved first len offsets.last)
      (parts ++ source.partsFrom buffer first len) := by
  apply h.append
  rw [hs.stops_partsFrom hr]
  have hlen : (source.moved first len offsets.last).length = len := by
    have := hs.length_eq
    simp [moved]
    omega
  -- Offset by offset: each is moved by what is there, and since the last one fits none of them
  -- wraps.
  apply List.ext_getElem (by simp [hlen])
  intro j hj hj'
  have hjlen : j < len := by simpa using hj'
  have hmono := hs.payload_add (show first + (j + 1 + (len - (j + 1))) ≤ source.rows by omega)
  have hlt : first + 1 + j < source.length := by
    have := hs.length_eq
    omega
  have hsub := hs.toNat_sub (show first + (j + 1) ≤ source.rows by omega)
  have hbound : parts.flatten.length + source.payload first (j + 1) ≤ greatest w := by
    rw [show j + 1 + (len - (j + 1)) = len by omega] at hmono
    omega
  have hmod := toNat_ofNat_of_le hbound
  rw [BitVec.toNat_ofNat] at hmod
  simp only [moved, List.map_map, List.getElem_map, List.getElem_take, List.getElem_drop,
    List.getElem_range, Function.comp, BitVec.toNat_add, h.toNat_last]
  rw [← offsetAt_of_lt hlt, show first + 1 + j = first + (j + 1) by omega, hsub, hmod]

/-- The first offset of a slice is zero, and the others are where an output without rows would have
them moved. -/
theorem Ascend.slice_eq {offsets : Offsets w} {limit : Nat} (h : offsets.Ascend limit)
    {first len : Nat} (hr : first + len ≤ offsets.rows) :
    offsets.slice first len = [0] ++ offsets.moved first len 0 := by
  have hlt : first < offsets.length := by
    have := h.length_eq
    omega
  rw [slice, List.drop_eq_getElem_cons hlt, List.take_succ_cons, List.map_cons,
    offsetAt_of_lt hlt, BitVec.sub_self]
  simp [moved, offsetAt_of_lt hlt]

theorem Ascend.cuts_slice {offsets : Offsets w} {buffer : List α}
    (h : offsets.Ascend buffer.length) {first len : Nat} (hr : first + len ≤ offsets.rows) :
    (offsets.slice first len).Cuts (offsets.partsFrom buffer first len) := by
  have hfit : offsets.payload first len ≤ greatest w := by
    rw [← h.toNat_sub hr]
    exact toNat_le_greatest _
  rw [h.slice_eq hr]
  exact cuts_zero.append_moved h hr (by simpa using hfit)

theorem Fill.offsetAt_zero {offsets : Offsets w} {limit : Nat} (h : offsets.Fill limit) :
    offsets.offsetAt 0 = 0 := by
  rw [offsetAt, List.getD_eq_getElem?_getD, ← List.head?_eq_getElem?, h.1]
  rfl

theorem Fill.cuts {offsets : Offsets w} {buffer : List α} (h : offsets.Fill buffer.length) :
    offsets.Cuts (offsets.partsFrom buffer 0 offsets.rows) := by
  have ha := h.ascend
  have hzero : (offsets.offsetAt 0).toNat = 0 := by simp [h.offsetAt_zero]
  rw [Cuts, ha.stops_partsFrom (by omega)]
  apply List.ext_getElem (by simp [ha.length_eq])
  intro i hi hi'
  have hlt : i < offsets.length := by simpa using hi
  rw [List.getElem_map, ← offsetAt_of_lt hlt]
  cases i with
  | zero => simpa using hzero
  | succ i => simp [payload, hzero]

theorem Fill.flatten_partsFrom {offsets : Offsets w} {buffer : List α}
    (h : offsets.Fill buffer.length) :
    (offsets.partsFrom buffer 0 offsets.rows).flatten = buffer := by
  have hlen := h.cuts.toNat_last
  rw [h.2.2, h.ascend.length_flatten_partsFrom (by omega)] at hlen
  have hzero : (offsets.offsetAt 0).toNat = 0 := by simp [h.offsetAt_zero]
  rw [h.ascend.flatten_partsFrom (by omega), hzero, ← hlen, List.drop_zero, List.take_length]

/-- What fills a buffer is determined by the parts, offsets and buffer alike. -/
theorem Fill.ext {a b : Offsets w} {xs ys : List α} (ha : a.Fill xs.length) (hb : b.Fill ys.length)
    (hrows : a.rows = b.rows) (hparts : a.partsFrom xs 0 a.rows = b.partsFrom ys 0 a.rows) :
    a = b ∧ xs = ys := by
  have hbuffer : xs = ys := by
    rw [← ha.flatten_partsFrom, ← hb.flatten_partsFrom, ← hrows, hparts]
  have hcuts := hb.cuts
  rw [← hrows, ← hparts] at hcuts
  exact ⟨ha.cuts.unique hcuts, hbuffer⟩

end Offsets

/-! ## What does not fit a type

Rows fit a builder if they have its type. A list scalar may state one element type and carry
another, and then its elements are a **misfit**, which the builder rejects as soon as a row is to be
made of them. Where a list has no elements in the range that is copied, nothing below it is looked
at.
-/

namespace Column

/-- The rejection of `len` rows from `offset` on by a builder of a type, if they do not fit. -/
def misfit : DataType → Column → Nat → Nat → Option Rejection
  | .fixed t, fixed u _, _, _ => if u = t then none else some (clash (.fixed t) (.fixed u))
  | .boolean, boolean _, _, _ => none
  | .text t, text u _, _, _ => if u = t then none else some (clash (.text t) (.text u))
  | .list type, list r child, offset, len =>
    if len = 0 then none
    else misfit type child (r.offsets.offsetAt offset).toNat (r.offsets.payload offset len)
  | type, c, _, len => if c.isUntyped ∧ len = 0 then none else some (clash type c.type)
where
  /-- Rows of one type where a builder has another. -/
  clash (type found : DataType) : Rejection :=
    .typeMismatch .builder (.type type) (some found)

theorem misfit_eq_none {type : DataType} {c : Column} (hconcrete : type.Concrete)
    (h : c.type = type) (offset len : Nat) : c.misfit type offset len = none := by
  subst h
  induction c generalizing offset len with
  | null kind => exact hconcrete.elim
  | fixed t b => simp [misfit, type]
  | boolean b => rfl
  | text t b => simp [misfit, type]
  | list r child ih =>
    rw [type, misfit]
    split
    · rfl
    · exact ih _ _ hconcrete

theorem misfit_eq_some {type : DataType} {c : Column} {offset len : Nat} {e : Rejection}
    (h : c.misfit type offset len = some e) : ∃ wanted found, e = misfit.clash wanted found := by
  fun_induction misfit type c offset len with
  | case2 | case5 | case9 => exact ⟨_, _, (Option.some.inj h).symm⟩
  | case7 type r child offset len hlen ih => exact ih h
  | _ => cases h

/-- **Rows fit together exactly if they fit apart.** Whether elements are looked at does not depend
on how the lists are taken, since lists without elements add none. -/
theorem misfit_add {type : DataType} {c : Column} (hc : c.WellFormed) {offset m n : Nat}
    (hr : offset + (m + n) ≤ c.length) :
    c.misfit type offset (m + n) = none ↔
      c.misfit type offset m = none ∧ c.misfit type (offset + m) n = none := by
  induction c generalizing type offset m n with
  | null kind => cases type <;> cases kind <;> simp [misfit, isUntyped]
  | fixed u c =>
    cases type with
    | fixed t => simp [misfit]
    | _ => simp [misfit, isUntyped]
  | boolean c =>
    cases type with
    | boolean => simp [misfit]
    | _ => simp [misfit, isUntyped]
  | text u c =>
    cases type with
    | text t => simp [misfit]
    | _ => simp [misfit, isUntyped]
  | list r child ih =>
    cases type with
    | list type =>
      obtain ⟨hascend, -, hchild⟩ := hc
      have hrows : offset + (m + n) ≤ r.offsets.rows := hr
      -- Elements are not looked at for no rows. If both parts have rows, the elements of the second
      -- start where those of the first stop.
      by_cases hm : m = 0
      · subst hm
        simp [misfit]
      by_cases hn : n = 0
      · subst hn
        simp [misfit]
      have hmn : m + n ≠ 0 := by omega
      have hpayload := hascend.payload_add hrows
      have hstart := hascend.start_add_payload (show offset + m ≤ r.offsets.rows by omega)
      have hstop := hascend.start_add_payload hrows
      have hlimit := hascend.le_limit hrows
      rw [misfit, misfit, misfit, if_neg hm, if_neg hn, if_neg hmn, hpayload,
        ih hchild (by omega), hstart]
    | _ => simp [misfit, isUntyped]

end Column

namespace Value

/-- The rejection of a value's rows by a builder of a type, if they do not fit. Of the values that
pass the argument checks, only list scalars can be misfits. -/
def misfit (type : DataType) : Value → Option Rejection
  | scalar (.list _ (some elements)) =>
    match type with
    | .list child => elements.misfit child 0 elements.length
    | _ => none
  | _ => none

/-- The value passes as one of a type: it has the type, or it is the untyped null. -/
def Fits (type : DataType) (value : Value) : Prop := value.isTyped → value.type = type

/-- A list scalar whose elements are what it states fits. -/
theorem misfit_of_agrees {type : DataType} {value : Value} (hconcrete : type.Concrete)
    (hfits : value.Fits type) (h : value.Agrees) : value.misfit type = none := by
  unfold misfit
  split
  · rename_i child elements
    have htype : DataType.list child = type := hfits rfl
    subst htype
    have hchild : child.Concrete := hconcrete
    exact Column.misfit_eq_none hchild h 0 elements.length
  · rfl

end Value

end Columnar
