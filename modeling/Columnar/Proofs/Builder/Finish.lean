import Columnar.Proofs.Builder.Basic
import Columnar.Proofs.Builder.Fill
import Columnar.Proofs.Builder.Reachable
import Columnar.Proofs.Column.Slice

/-!
# What builders finish with

A builder that can be reached always finishes, and a builder with nothing but a copy of some rows
finishes with the slice of them.
-/

namespace Columnar

/-! ## The parts of a builder agree

Rows, validity and payload lie in buffers of their own, and a change grows one after the other. A
builder is **consistent** if they all count the same rows: the validity is over as many as are
stored, there is one more offset than rows, and the offsets run from zero to the end of the payload,
which is the bytes of a text builder and the child of a list builder. That is all that finishing
asks for, so **a consistent builder always finishes**.

The parts alone do not show that a change keeps them in agreement. The rows that a builder holds do:
every change, whether it goes through or not, leaves rows, at every depth of nesting.
-/

/-! ### Parts -/

/-- The validity is that of `rows` rows, and so is the mask if there is one. -/
def ValidityBuilder.Counts (v : ValidityBuilder) (rows : Nat) : Prop :=
  v.len = rows ∧ ∀ m, v.mask = some m → m.len = rows

namespace ValidityBuilder

variable {v : ValidityBuilder}

theorem Tracks.counts {bits : List Bool} (h : v.Tracks bits) : v.Counts bits.length := by
  refine ⟨h.len, fun m hm => ?_⟩
  have hmask := h.mask
  rw [hm] at hmask
  rw [← hmask.2.1, Bitmask.length_toList]

theorem Counts.check_finish {rows : Nat} (h : v.Counts rows) : v.finish.check rows = .ok () := by
  rw [finish]
  split
  · rfl
  · cases hm : v.mask with
    | none => rfl
    | some m => exact Checked.require_of (h.2 m hm)

end ValidityBuilder

namespace Offsets

variable {w : Nat} {α : Type} {offsets : Offsets w}

/-- The offsets of `rows` rows run from zero to the end of the payload. -/
def Span (offsets : Offsets w) (rows payload : Nat) : Prop :=
  offsets.length = rows + 1 ∧ offsets.Fill payload

theorem Cuts.span {parts : List (List α)} (h : offsets.Cuts parts) :
    offsets.Span offsets.rows parts.flatten.length :=
  ⟨by rw [h.length_eq, h.rows_eq], h.fill⟩

end Offsets

namespace Builder

/-- The buffers of the builder, and of its child, count the same rows. -/
def Consistent : Builder → Prop
  | fixed _ b => b.validity.Counts b.slots.length
  | boolean b => b.validity.Counts b.values.len
  | text _ b => b.offsets.Span b.length b.bytes.length ∧ b.validity.Counts b.length
  | list rows child =>
    rows.offsets.Span rows.length child.length ∧ rows.validity.Counts rows.length ∧
      child.Consistent

variable {b : Builder} {rows : List Row}

/-- **A builder that holds rows is consistent.** -/
theorem Holds.consistent (h : b.Holds rows) : b.Consistent := by
  induction b generalizing rows with
  | fixed t b =>
    obtain ⟨bits, htracks, hlen, -⟩ := h
    rw [Consistent, ← hlen]
    exact htracks.counts
  | boolean b =>
    obtain ⟨bits, htracks, hlen, -, -⟩ := h
    rw [Consistent, ← Bitmask.length_toList, ← hlen]
    exact htracks.counts
  | text t b =>
    obtain ⟨bits, parts, htracks, hlen, hcuts, hbytes, -, -⟩ := h
    have hrows : bits.length = b.length := by rw [TextBuilder.length, hcuts.rows_eq, hlen]
    exact ⟨hbytes ▸ hcuts.span, hrows ▸ htracks.counts⟩
  | list b child ih =>
    obtain ⟨elements, ⟨bits, parts, htracks, hlen, hcuts, hparts, -⟩, hchild⟩ := h
    have hrows : bits.length = b.length := by rw [ListBuilder.length, hcuts.rows_eq, hlen]
    have hpayload : child.length = parts.flatten.length := by rw [hchild.length_eq, hparts]
    exact ⟨hpayload ▸ hcuts.span, hrows ▸ htracks.counts, ih hchild⟩

/-- **A consistent builder finishes** with a column of its type and of as many rows. -/
theorem Consistent.finish (h : b.Consistent) :
    ∃ c, b.finish = .ok c ∧ c.length = b.length ∧ c.type = b.type := by
  induction b with
  | fixed t b =>
    refine ⟨.fixed t ⟨b.slots, b.validity.finish⟩, ?_, rfl, rfl⟩
    have hmask : b.validity.finish.check b.slots.length = .ok () := h.check_finish
    simp [Builder.finish, FixedBuilder.finish, FixedColumn.ofParts, hmask, bind, Except.bind,
      pure, Except.pure]
  | boolean b =>
    refine ⟨.boolean ⟨b.values, b.validity.finish⟩, ?_, rfl, rfl⟩
    have hmask : b.validity.finish.check b.values.len = .ok () := h.check_finish
    simp [Builder.finish, BooleanBuilder.finish, BooleanColumn.ofParts, hmask, bind, Except.bind,
      pure, Except.pure]
  | text t b =>
    refine ⟨.text t ⟨b.offsets, b.bytes, b.validity.finish⟩, ?_, rfl, rfl⟩
    have hmask : b.validity.finish.check b.offsets.rows = .ok () := h.2.check_finish
    simp [Builder.finish, TextBuilder.finish, TextColumn.ofParts, hmask, bind, Except.bind, pure,
      Except.pure]
  | list b child ih =>
    obtain ⟨⟨-, hfill⟩, hcounts, hchild⟩ := h
    obtain ⟨c, hc, hlength, htype⟩ := ih hchild
    refine ⟨.list b.finish c, ?_, rfl, by rw [Column.type, htype, Builder.type]⟩
    -- The child has as many rows as the last offset says, which is what the checks of lists ask
    -- for.
    have hlast : b.offsets.last.toNat = c.length := hfill.2.2.trans hlength.symm
    have hmask : b.validity.finish.check b.offsets.rows = .ok () := hcounts.check_finish
    simp [Builder.finish, hc, Column.ofLists, ListBuilder.finish, ListRows.length,
      hfill.ascend.1, hlast, hmask, bind, Except.bind, pure, Except.pure]

/-- **The buffers of a builder agree after any changes, and it finishes.** Whatever went through and
whatever broke off before, all its buffers count the same rows, at every depth, and finishing gives
a column of its type with as many rows. -/
theorem Reachable.buffers_agree (h : b.Reachable) :
    b.Consistent ∧ ∃ c, b.finish = .ok c ∧ c.length = b.length ∧ c.type = b.type := by
  obtain ⟨rows, hholds⟩ := h.sound
  exact ⟨hholds.consistent, hholds.consistent.finish⟩

/-- Two copies of a list of a text and a null, then a row whose elements are of another type, which
is rejected below the list, and then a null. -/
theorem consistent_after_rejection :
    ∃ b c : Builder, (reserve (.list (.text .string)) 0 0).outcome = .ok b ∧
      b.after [.fill (.list (.text .string)
          (some (.text .string ⟨[0, 1, 1], [97], some (.ofList [true, false])⟩))) 2,
        .copyRow (.list ⟨[0, 1], none⟩ (.boolean ⟨.ofList [true], none⟩)) 0, .fillNull 1] = c ∧
      c.length = 3 ∧ c.Consistent ∧
      ∃ out, c.finish = .ok out ∧ out.length = 3 ∧ out.type = .list (.text .string) := by
  have hreserve : (reserve (.list (.text .string)) 0 0).outcome =
      .ok (list .empty (.text .string (.empty .string))) := rfl
  have hreach := (Reachable.reserve hreserve).after [.fill (.list (.text .string)
      (some (.text .string ⟨[0, 1, 1], [97], some (.ofList [true, false])⟩))) 2,
    .copyRow (.list ⟨[0, 1], none⟩ (.boolean ⟨.ofList [true], none⟩)) 0, .fillNull 1] (by decide)
  obtain ⟨hconsistent, out, hout, hlength, htype⟩ := hreach.buffers_agree
  exact ⟨_, _, hreserve, rfl, by decide, hconsistent, out, hout, hlength.trans (by decide),
    htype.trans (by decide)⟩

end Builder

/-! ## Slices out of builders

Rows of a column are copied to a column of their own in two ways: cut out buffer by buffer, or put
into an empty builder, which is then finished. The ways have their own arithmetic of offsets, their
own treatment of masks, and their own recursion into lists, which the builder leaves early when no
row is asked for. They come to **the same column**. A builder for the type takes every range of the
column's rows, because offsets that a column has can count its rows.
-/

namespace Builder

variable {c : Column} {offset len : Nat} {b : Builder}

/-- An empty builder for the column's type is stopped by nothing but a column that stores more text
than can be addressed. -/
theorem copy_empty_cases (hb : b.Holds []) (htype : b.type = c.type) (hc : c.WellFormed)
    (hr : offset + len ≤ c.length) :
    (b.copy c offset len).failure = none ∨
      (b.copy c offset len).failure = some (.fault .tooLarge) ∧
        addressableBytes < c.textLength := by
  have hadds := copy_adds hb hc hr
  rw [Column.misfit_eq_none b.concrete_type htype.symm] at hadds
  cases hf : (b.copy c offset len).failure with
  | none => exact .inl rfl
  | some f =>
    rw [Adds, Attempt.Ends, hf] at hadds
    rcases hadds with ⟨-, hroom⟩ | ⟨rfl, -, hmem⟩
    · rw [List.nil_append, htype] at hroom
      exact absurd (Column.room_rowsFrom hc hr) hroom
    · rw [List.nil_append] at hmem
      exact .inr ⟨rfl, Nat.lt_of_lt_of_le hmem (Column.textBytesOf_rowsFrom_le hc hr)⟩

/-- **A slice is what an empty builder makes of its rows.** Whatever was reserved for the type of a
well-formed column, copying any range of its rows goes through, and the builder finishes with the
slice, buffer by buffer: what is stored under nulls, offsets, bytes, children, and masks. There is
no such copy only of a column that stores more text than can be addressed. -/
theorem copy_reserved {rows hint : Nat} (hc : c.WellFormed) (hr : offset + len ≤ c.length)
    (hb : (reserve c.type rows hint).outcome = .ok b) :
    ∃ d, c.slice offset len = .ok d ∧ d.Canonical ∧
      ((b.copy c offset len).failure = none ∧ (b.copy c offset len).state.finish = .ok d ∨
        (b.copy c offset len).failure = some (.fault .tooLarge) ∧
          addressableBytes < c.textLength) := by
  obtain ⟨htype, hholds, -⟩ := reserve_eq_ok hb
  obtain ⟨d, hd, hcanonical, hdtype, hdrows⟩ := Column.slice_spec hc hr
  refine ⟨d, hd, hcanonical, ?_⟩
  rcases copy_empty_cases hholds htype hc hr with hnone | hmem
  · have hadded := (copy_adds hholds hc hr).extends
    obtain ⟨out, hout, houtCanonical, houttype, hrows⟩ := (hadded.holds hnone).finish
    rw [hadded.type hnone, htype] at houttype
    have hconcrete : out.type.Concrete := by
      rw [houttype, ← htype]
      exact b.concrete_type
    -- Both are canonical columns of the rows.
    have heq : out = d :=
      houtCanonical.ext hconcrete hcanonical (houttype.trans hdtype.symm) (hrows.trans hdrows.symm)
    exact .inl ⟨hnone, heq ▸ hout⟩
  · exact .inr hmem

/-- Two of three lists, the second of them null over two elements, out of a column with a spare
element at either end: the child is cut to four elements and the offsets start over. -/
theorem copy_reserved_lists :
    ∃ b : Builder, (reserve (.list (.text .string)) 5 0).outcome = .ok b ∧
      (b.copy (.list ⟨[1, 1, 2, 4], some (.ofList [true, true, false])⟩
        (.text .string ⟨[0, 1, 2, 3, 4, 5], [98, 97, 99, 100, 101], none⟩)) 1 2).state.finish =
          .ok (.list ⟨[0, 1, 3], some (.ofList [true, false])⟩
            (.text .string ⟨[0, 1, 2, 3], [97, 99, 100], none⟩)) := by
  have hb : (reserve (.list (.text .string)) 5 0).outcome =
    .ok (.list .empty (.text .string (.empty .string))) := rfl
  obtain ⟨d, hd, -, hcopy⟩ := copy_reserved
    (c := .list ⟨[1, 1, 2, 4], some (.ofList [true, true, false])⟩
      (.text .string ⟨[0, 1, 2, 3, 4, 5], [98, 97, 99, 100, 101], none⟩))
    (by decide) (show 1 + 2 ≤ 3 by decide) hb
  cases hd
  refine ⟨_, hb, ?_⟩
  rcases hcopy with ⟨-, hfinish⟩ | ⟨-, hmem⟩
  · exact hfinish
  · exact absurd hmem (by decide)

end Builder

end Columnar
