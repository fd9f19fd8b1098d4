import Columnar.Builder.Storage
import Columnar.Proofs.Builder.Attempt
import Columnar.Proofs.Builder.Validity

/-!
# Builders of fixed-width and boolean columns

A builder **holds** rows when its buffers are theirs: the validity tracks their validity bits, and
the slots or the tight bits are what is stored in them. Copies and fills append to the rows, and a
builder finishes with a canonical column of the rows that it holds.
-/

namespace Columnar

/-! ## Fixed-width columns -/

namespace FixedBuilder

variable {t : FixedType}

/-- The builder's buffers are those of the rows. -/
def Holds (b : FixedBuilder t) (rows : List Row) : Prop :=
  ∃ bits, b.validity.Tracks bits ∧ bits.length = b.slots.length ∧
    rows = List.zipWith (Row.fixed t) bits b.slots

theorem holds_empty : (empty t).Holds [] := ⟨[], ValidityBuilder.tracks_empty, rfl, rfl⟩

variable {b : FixedBuilder t} {rows : List Row}

theorem Holds.length_eq (h : b.Holds rows) : b.length = rows.length := by
  obtain ⟨bits, -, hlen, rfl⟩ := h
  simp [hlen, length]

theorem Holds.append (h : b.Holds rows) {validity : ValidityBuilder} (slots : List t.Slot)
    (more : List Bool) (hlen : more.length = slots.length)
    (hv : ∀ bits, b.validity.Tracks bits → validity.Tracks (bits ++ more)) :
    (FixedBuilder.mk (b.slots ++ slots) validity).Holds
      (rows ++ List.zipWith (Row.fixed t) more slots) := by
  obtain ⟨bits, htracks, hbits, rfl⟩ := h
  exact ⟨bits ++ more, hv bits htracks, by simp [hbits, hlen], (List.zipWith_append hbits).symm⟩

theorem Holds.copy (h : b.Holds rows) (c : FixedColumn t) {offset len : Nat}
    (hr : offset + len ≤ c.length) :
    ∃ b', b.copy c offset len = .ok b' ∧
      b'.Holds (rows ++ (Column.fixed t c).rowsFrom offset len) := by
  have hslots : ((c.slots.drop offset).take len).length = len := by
    simp only [FixedColumn.length] at hr
    simp
    omega
  have hpart : bufferPart c.slots offset (offset + len) = .ok ((c.slots.drop offset).take len) := by
    simp only [FixedColumn.length] at hr
    simp [bufferPart, hr, bind, Except.bind, pure, Except.pure]
  rw [Column.rowsFrom_fixed c hr]
  refine ⟨⟨b.slots ++ (c.slots.drop offset).take len,
    b.validity.copy (c.validity.window offset len) len⟩, ?_, ?_⟩
  · simp [FixedBuilder.copy, hpart, bind, Except.bind, pure, Except.pure]
  · exact h.append _ _ (by simp [hslots]) fun bits hb => hb.copy c.validity offset len

theorem Holds.copyRow (h : b.Holds rows) {c : FixedColumn t} (hc : c.validity.Covers c.length)
    {i : Nat} (hi : i < c.length) :
    ∃ b', b.copyRow c i = .ok b' ∧ b'.Holds (rows ++ [(Column.fixed t c).row i]) := by
  refine ⟨⟨b.slots ++ [c.slots.getD i 0], b.validity.add (c.validity.bit i)⟩, ?_, ?_⟩
  · simp [FixedBuilder.copyRow, c.slotAt_eq hi, Validity.isNull_eq hc hi, bind, Except.bind, pure,
      Except.pure]
  · exact h.append [c.slots.getD i 0] [c.validity.bit i] rfl fun bits hb => hb.add _

theorem copy_past_end (b : FixedBuilder t) {c : FixedColumn t} {offset len : Nat}
    (hr : c.length < offset + len) : b.copy c offset len = .error .outOfRange := by
  have hpast : ¬ offset + len ≤ c.slots.length := Nat.not_le_of_lt hr
  simp [FixedBuilder.copy, bufferPart, Checked.require, hpast, bind, Except.bind]

theorem copyRow_past_end (b : FixedBuilder t) {c : FixedColumn t} {i : Nat} (hi : c.length ≤ i) :
    b.copyRow c i = .error .outOfRange := by
  have hpast : c.slots.length ≤ i := hi
  simp [FixedBuilder.copyRow, FixedColumn.slotAt, hpast, bind, Except.bind]

theorem Holds.fillNull (h : b.Holds rows) {n : Nat}
    (hm : (rows.length + n) * (t.width / 8) ≤ addressableBytes) :
    ∃ b', b.fillNull n = .ok b' ∧
      b'.Holds (rows ++ List.replicate n (Row.blank (.fixed t))) := by
  rw [← h.length_eq] at hm
  refine ⟨⟨b.slots ++ List.replicate n 0, b.validity.addNull n⟩, ?_, ?_⟩
  · simp [FixedBuilder.fillNull, requireRows, requireBytes_eq_ok hm, bind, Except.bind, pure,
      Except.pure]
  · have := h.append (List.replicate n 0) _ (by simp) fun bits hb => hb.addNull n
    simpa [Row.blank] using this

theorem Holds.fill (h : b.Holds rows) (x : t.Slot) {n : Nat}
    (hm : (rows.length + n) * (t.width / 8) ≤ addressableBytes) :
    ∃ b', b.fill (some x) n = .ok b' ∧
      b'.Holds (rows ++ List.replicate n (Row.fixed t true x)) := by
  rw [← h.length_eq] at hm
  refine ⟨⟨b.slots ++ List.replicate n x, b.validity.addValid n⟩, ?_, ?_⟩
  · simp [FixedBuilder.fill, requireRows, requireBytes_eq_ok hm, bind, Except.bind, pure,
      Except.pure]
  · have := h.append (List.replicate n x) _ (by simp) fun bits hb => hb.addValid n
    simpa using this

theorem Holds.fillValue (h : b.Holds rows) (v : Option t.Slot) {n : Nat}
    (hm : (rows.length + n) * (t.width / 8) ≤ addressableBytes) :
    ∃ b', b.fill v n = .ok b' ∧
      b'.Holds (rows ++ List.replicate n ((Scalar.fixed t v).row (.fixed t))) := by
  cases v with
  | none => exact h.fillNull hm
  | some x => exact h.fill x hm

theorem fill_eq_error (b : FixedBuilder t) {n : Nat}
    (h : addressableBytes < (b.length + n) * (t.width / 8)) (v : Option t.Slot) :
    b.fill v n = .error .tooLarge := by
  cases v <;> simp only [fill, fillNull, requireRows, requireBytes_eq_error h] <;> rfl

theorem Holds.unique {b' : FixedBuilder t} (h : b.Holds rows) (h' : b'.Holds rows) : b = b' := by
  obtain ⟨bits, htracks, hbits, rfl⟩ := h
  obtain ⟨bits', htracks', hbits', hrows⟩ := h'
  obtain ⟨rfl, hslots⟩ := zipWith_inj
    (fun _ _ _ _ h => by cases h; exact ⟨rfl, rfl⟩) hbits hbits' hrows
  exact FixedBuilder.ext hslots (htracks.unique htracks')

theorem Holds.finish (h : b.Holds rows) :
    ∃ c, b.finish = .ok c ∧ (Column.fixed t c).Canonical ∧ (Column.fixed t c).rows = rows := by
  obtain ⟨bits, htracks, hbits, rfl⟩ := h
  obtain ⟨hcanonical, hfinish⟩ := htracks.finish
  rw [hbits] at hcanonical hfinish
  refine ⟨⟨b.slots, b.validity.finish⟩, ?_, Column.whole_fixed hcanonical hfinish⟩
  simp [FixedBuilder.finish, FixedColumn.ofParts, htracks.check_finish hbits, bind, Except.bind,
    pure, Except.pure]

end FixedBuilder

/-! ## Boolean columns -/

namespace BooleanBuilder

/-- The builder's buffers are those of the rows. -/
def Holds (b : BooleanBuilder) (rows : List Row) : Prop :=
  ∃ bits, b.validity.Tracks bits ∧ bits.length = b.values.toList.length ∧ b.values.Tight ∧
    rows = List.zipWith Row.boolean bits b.values.toList

theorem holds_empty : empty.Holds [] :=
  ⟨[], ValidityBuilder.tracks_empty, rfl, Bitmask.tight_empty, rfl⟩

variable {b : BooleanBuilder} {rows : List Row}

theorem Holds.length_eq (h : b.Holds rows) : b.length = rows.length := by
  obtain ⟨bits, -, hlen, -, rfl⟩ := h
  simp [hlen, length]

theorem Holds.append (h : b.Holds rows) {values : Bitmask} {validity : ValidityBuilder}
    (new more : List Bool) (hlen : more.length = new.length)
    (hvalues : b.values.Tight → values.Tight ∧ values.toList = b.values.toList ++ new)
    (hv : ∀ bits, b.validity.Tracks bits → validity.Tracks (bits ++ more)) :
    (BooleanBuilder.mk values validity).Holds (rows ++ List.zipWith Row.boolean more new) := by
  obtain ⟨bits, htracks, hbits, htight, rfl⟩ := h
  obtain ⟨htight', hlist⟩ := hvalues htight
  refine ⟨bits ++ more, hv bits htracks, by simp [hlist, hbits, hlen], htight', ?_⟩
  rw [hlist, List.zipWith_append hbits]

theorem Holds.copy (h : b.Holds rows) (c : BooleanColumn) (offset len : Nat) :
    (b.copy c offset len).Holds (rows ++ (Column.boolean c).rowsFrom offset len) := by
  rw [Column.rowsFrom_boolean]
  exact h.append _ _ (by simp [BooleanColumn.window])
    (fun ht => ⟨ht.clean.append _, ht.clean.toList_append _⟩)
    fun bits hb => hb.copy c.validity offset len

theorem Holds.copyRow (h : b.Holds rows) {c : BooleanColumn} (hc : c.validity.Covers c.length)
    {i : Nat} (hi : i < c.length) :
    ∃ b', b.copyRow c i = .ok b' ∧ b'.Holds (rows ++ [(Column.boolean c).row i]) := by
  refine ⟨⟨b.values.push (c.values.bit i), b.validity.add (c.validity.bit i)⟩, ?_, ?_⟩
  · simp [BooleanBuilder.copyRow, c.valueAt_eq hi, Validity.isNull_eq hc hi, bind, Except.bind,
      pure, Except.pure]
  · exact h.append [c.values.bit i] [c.validity.bit i] rfl
      (fun ht => ⟨ht.clean.push _, ht.clean.toList_push _⟩) fun bits hb => hb.add _

theorem copyRow_past_end (b : BooleanBuilder) {c : BooleanColumn} {i : Nat} (hi : c.length ≤ i) :
    b.copyRow c i = .error (.maskGet i c.length) := by
  have hpast : ¬ i < c.values.len := Nat.not_lt_of_le hi
  simp only [BooleanBuilder.copyRow, BooleanColumn.valueAt, Bitmask.get, Checked.require,
    if_neg hpast]
  rfl

theorem Holds.fillNull (h : b.Holds rows) {n : Nat}
    (hm : Bits.byteCount (rows.length + n) ≤ addressableBytes) :
    ∃ b', b.fillNull n = .ok b' ∧ b'.Holds (rows ++ List.replicate n (Row.blank .boolean)) := by
  rw [← h.length_eq] at hm
  refine ⟨⟨b.values.pushMany false n, b.validity.addNull n⟩, ?_, ?_⟩
  · simp [BooleanBuilder.fillNull, requireRows, Bitmask.requireBits, requireBytes_eq_ok hm, bind,
      Except.bind, pure, Except.pure]
  · have := h.append (List.replicate n false) _ (by simp)
      (fun ht => ⟨ht.clean.pushMany false n, ht.clean.toList_pushMany false n⟩)
      fun bits hb => hb.addNull n
    simpa [Row.blank] using this

theorem Holds.fill (h : b.Holds rows) (x : Bool) {n : Nat}
    (hm : Bits.byteCount (rows.length + n) ≤ addressableBytes) :
    ∃ b', b.fill (some x) n = .ok b' ∧
      b'.Holds (rows ++ List.replicate n (Row.boolean true x)) := by
  rw [← h.length_eq] at hm
  refine ⟨⟨b.values.pushMany x n, b.validity.addValid n⟩, ?_, ?_⟩
  · simp [BooleanBuilder.fill, requireRows, Bitmask.requireBits, requireBytes_eq_ok hm, bind,
      Except.bind, pure, Except.pure]
  · have := h.append (List.replicate n x) _ (by simp)
      (fun ht => ⟨ht.clean.pushMany x n, ht.clean.toList_pushMany x n⟩)
      fun bits hb => hb.addValid n
    simpa using this

theorem Holds.fillValue (h : b.Holds rows) (v : Option Bool) {n : Nat}
    (hm : Bits.byteCount (rows.length + n) ≤ addressableBytes) :
    ∃ b', b.fill v n = .ok b' ∧
      b'.Holds (rows ++ List.replicate n ((Scalar.boolean v).row .boolean)) := by
  cases v with
  | none => exact h.fillNull hm
  | some x => exact h.fill x hm

theorem fill_eq_error (b : BooleanBuilder) {n : Nat}
    (h : addressableBytes < Bits.byteCount (b.length + n)) (v : Option Bool) :
    b.fill v n = .error .tooLarge := by
  cases v <;>
    simp only [fill, fillNull, requireRows, Bitmask.requireBits, requireBytes_eq_error h] <;> rfl

theorem Holds.unique {b' : BooleanBuilder} (h : b.Holds rows) (h' : b'.Holds rows) : b = b' := by
  obtain ⟨bits, htracks, hbits, htight, rfl⟩ := h
  obtain ⟨bits', htracks', hbits', htight', hrows⟩ := h'
  obtain ⟨rfl, hvalues⟩ := zipWith_inj
    (fun _ _ _ _ h => by cases h; exact ⟨rfl, rfl⟩) hbits hbits' hrows
  exact BooleanBuilder.ext (htight.ext htight' hvalues) (htracks.unique htracks')

theorem Holds.finish (h : b.Holds rows) :
    ∃ c, b.finish = .ok c ∧ (Column.boolean c).Canonical ∧ (Column.boolean c).rows = rows := by
  obtain ⟨bits, htracks, hbits, htight, rfl⟩ := h
  obtain ⟨hcanonical, hfinish⟩ := htracks.finish
  rw [Bitmask.length_toList] at hbits
  rw [hbits] at hcanonical hfinish
  refine ⟨⟨b.values, b.validity.finish⟩, ?_, Column.whole_boolean htight hcanonical hfinish⟩
  simp [BooleanBuilder.finish, BooleanColumn.ofParts, htracks.check_finish hbits, bind,
    Except.bind, pure, Except.pure]

end BooleanBuilder

end Columnar
